
import ThreadedForth.Proofs.Compiler.Draft
import ThreadedForth.Proofs.Machine.Steady

/-!
# Compiling on a machine

`Site` ties a machine to a draft: the dictionary holds the cells of the draft and the control stack its
markers. `Performs` says that an action of the machine does to the draft what a function on drafts does,
and leaves all but the definition and the control stack alone. Every control word performs its own
function.
-/

namespace ThreadedForth

open Layout Memory Option Region

/-! ### Markers in memory -/

/-- The markers stand in memory from the top of the control stack on. -/
def HoldsMarkers (memory : Memory) : Nat → List Marker → Prop
  | _, [] => True
  | top, marker :: rest =>
    memory.cellAt top = marker.tag.toCell ∧ Cell.toAddress (memory.cellAt (top + 4)) = marker.address ∧
      HoldsMarkers memory (top + 8) rest

theorem HoldsMarkers.frame {area : Nat → Prop} {before after : Memory} {top : Nat} {markers : List Marker}
    (hholds : HoldsMarkers before top markers) (hsame : Memory.SameOutside area before after)
    (hout : ∀ addr, top ≤ addr → addr < top + 8 * markers.length → ¬ area addr) :
    HoldsMarkers after top markers := by
  induction markers generalizing top with
  | nil => trivial
  | cons marker rest ih =>
    obtain ⟨htag, haddr, hrest⟩ := hholds
    rw [List.length_cons] at hout
    refine ⟨?_, ?_, ih hrest fun addr hlow hhigh => hout addr (by omega) (by omega)⟩
    · rw [hsame.cellAt fun other hlow hhigh => hout other (by omega) (by omega)]
      exact htag
    · rw [hsame.cellAt fun other hlow hhigh => hout other (by omega) (by omega)]
      exact haddr

theorem Machine.dictionary_withMarker (m : Machine) (marker : Marker) :
    (m.withMarker marker).dictionary = m.dictionary := by
  rw [Machine.withMarker]

theorem Machine.sameOutside_withMarker {m : Machine} (marker : Marker) (hroom : m.control.limit + 8 ≤ m.control.top) :
    Memory.SameOutside (Region.mk (m.control.top - 4 - 4) m.control.top).Holds
      m.memory (m.withMarker marker).memory := by
  refine ((Memory.sameOutside_setCell _ _ _).mono fun addr hin => ?_).trans
    ((Memory.sameOutside_setCell _ _ _).mono fun addr hin => ?_)
  · rw [holds_mk] at hin ⊢
    omega
  · rw [holds_mk] at hin ⊢
    omega

theorem HoldsMarkers.withMarker {m : Machine} {markers : List Marker}
    (hholds : HoldsMarkers m.memory m.control.top markers) (hb : m.Bounded) {marker : Marker}
    (haddr : marker.address < 2 ^ 31) (hroom : m.control.limit + 8 ≤ m.control.top) :
    HoldsMarkers (m.withMarker marker).memory (m.withMarker marker).control.top (marker :: markers) := by
  have hsize := hb.size_eq
  have hbase := hb.control.top_le
  have hfin := hb.control.usable.finish_le
  have hbaseEq := hb.control.base_eq
  refine ⟨?_, ?_, ?_⟩
  · change cellAt (setCell (setCell m.memory _ _) _ _)
      (m.control.top - 4 - 4) = marker.tag.toCell
    rw [cellAt_setCell _ _ _ (by rw [size_setCell]; omega)]
  · change Cell.toAddress (cellAt (setCell (setCell m.memory _ _) _ _)
      (m.control.top - 4 - 4 + 4)) = _
    rw [Nat.sub_add_cancel (by omega), cellAt_setCell_of_apart _ _ (.inr (by omega)),
      cellAt_setCell _ _ _ (by omega), Cell.toAddress_ofNat haddr]
  · have hsame : m.control.top - 4 - 4 + 8 = m.control.top := by omega
    change HoldsMarkers _ (m.control.top - 4 - 4 + 8) _
    rw [hsame]
    refine hholds.frame (Machine.sameOutside_withMarker marker hroom) fun addr hlow _ hin => ?_
    rw [holds_mk] at hin
    omega

theorem topTag_of_holds {m : Machine} (hb : m.Bounded) {markers : List Marker}
    (htop : m.control.top + 8 * markers.length = m.control.base)
    (hholds : HoldsMarkers m.memory m.control.top markers) : WordM.topTag m = .ok (markers.head?.map Marker.tag) m := by
  rw [WordM.topTag, WordM.ask]
  cases markers with
  | nil =>
    rw [List.length_nil] at htop
    rw [if_pos (by rw [Stack.depth]; omega)]
    rfl
  | cons marker rest =>
    rw [List.length_cons] at htop
    have hfin := hb.control.usable.finish_le
    have hbase := hb.control.base_eq
    have hsize := hb.size_eq
    have hpeek : m.control.peek m.memory 0 = .ok marker.tag.toCell := by
      rw [Stack.peek, Stack.check, if_neg (by rw [Stack.depth]; omega)]
      change m.memory.readCell m.control.top = _
      rw [readCell_eq_ok (by omega) hb.control.aligned]
      exact congrArg Except.ok hholds.1
    rw [if_neg (by rw [Stack.depth]; omega), hpeek]
    simp only [Tag.ofCell?_toCell]
    rfl

theorem popMarker_of_holds {m : Machine} (hb : m.Bounded) {marker : Marker} {rest : List Marker}
    (htop : m.control.top + 8 * (marker :: rest).length = m.control.base)
    (hholds : HoldsMarkers m.memory m.control.top (marker :: rest)) :
    WordM.popMarker m = .ok marker m.withoutMarker := by
  obtain ⟨htag, haddr, _⟩ := hholds
  rw [List.length_cons] at htop
  rw [WordM.popMarker_of_markers hb (by omega), htag, Tag.ofCell?_toCell, haddr]

/-- The marker waits for the target of a branch. -/
def Tag.isForward : Tag → Bool
  | if_ | else_ | while_ | doForward | leave | of_ | endOf => true
  | _ => false

/-- The address is that of a cell of the definition. -/
def Draft.InRange (first : Nat) (draft : Draft) (address : Nat) : Prop :=
  first ≤ address ∧ address + 4 ≤ draft.here ∧ address % 4 = 0

/-- What every machine that holds a draft says about it. -/
structure Draft.Sound (first : Nat) (draft : Draft) : Prop where
  first_le : first ≤ draft.here
  isAligned : draft.here % 4 = 0
  here_lt : draft.here < 2 ^ 30
  length_le : draft.markers.length ≤ Draft.maxMarkers
  addresses : ∀ marker ∈ draft.markers, marker.address < 2 ^ 31
  placeholders : ∀ marker ∈ draft.markers, marker.tag.isForward → draft.InRange first marker.address

/-! ### Sites -/

/-- The machine holds the draft of a definition whose code starts at `first`. -/
structure Site (first : Nat) (draft : Draft) (m : Machine) : Prop where
  bounded : m.Bounded
  here_eq : m.dictionary.here = draft.here
  names_eq : m.dictionary.names = draft.names
  start_le : dictionaryStart ≤ first
  first_le : first ≤ draft.here
  isAligned : draft.here % 4 = 0
  cells : ∀ address, draft.InRange first address → m.memory.cellAt address = draft.cells address
  top_eq : m.control.top + 8 * draft.markers.length = m.control.base
  held : HoldsMarkers m.memory m.control.top draft.markers
  addresses : ∀ marker ∈ draft.markers, marker.address < 2 ^ 31
  placeholders : ∀ marker ∈ draft.markers, marker.tag.isForward → draft.InRange first marker.address

/-- The bytes that compiling may change: those of the definition and of the control stack. -/
def Workspace (first names : Nat) (address : Nat) : Prop :=
  (mk first names).Holds address ∨ controlRegion.Holds address

/-- What compiling leaves alone. -/
structure Worked (first : Nat) (before after : Machine) : Prop where
  machine : after = { before with
    memory := after.memory, control := after.control, dictionary := after.dictionary }
  dictionary : after.dictionary = { before.dictionary with here := after.dictionary.here }
  memory : Memory.SameOutside (Workspace first before.dictionary.names) before.memory after.memory

namespace Worked

variable {first : Nat} {before middle after : Machine}

theorem refl (first : Nat) (m : Machine) : Worked first m m :=
  ⟨rfl, rfl, Memory.SameOutside.refl _ _⟩

theorem names_eq (hwork : Worked first before after) : after.dictionary.names = before.dictionary.names := by
  rw [hwork.dictionary]

theorem trans (hfst : Worked first before middle) (hsnd : Worked first middle after) : Worked first before after := by
  refine ⟨?_, ?_, ?_⟩
  · rw [hsnd.machine, hfst.machine]
  · rw [hsnd.dictionary, hfst.dictionary]
  · have hmem := hsnd.memory
    rw [hfst.names_eq] at hmem
    exact hfst.memory.trans hmem

end Worked

namespace Site

variable {first : Nat} {draft : Draft} {m : Machine}

variable (hsite : Site first draft m)

include hsite

theorem here_le : draft.here ≤ dictionaryEnd := by
  have hhere := hsite.bounded.dictionary.here_le
  have hnames := hsite.bounded.dictionary.names_le
  rw [hsite.here_eq] at hhere
  exact Nat.le_trans hhere hnames

theorem here_lt : draft.here < 2 ^ 30 :=
  Nat.lt_of_le_of_lt hsite.here_le (by decide)

theorem names_le : draft.names ≤ dictionaryEnd :=
  hsite.names_eq ▸ hsite.bounded.dictionary.names_le

theorem base_eq : m.control.base = dictionaryEnd + 512 :=
  hsite.bounded.control.base_eq

theorem limit_eq : m.control.limit = dictionaryEnd :=
  hsite.bounded.control.limit_eq

theorem top_ge : dictionaryEnd ≤ m.control.top :=
  hsite.limit_eq ▸ hsite.bounded.control.limit_le

theorem sound : draft.Sound first := by
  have htop := hsite.top_eq
  have hbase := hsite.base_eq
  have hlow := hsite.top_ge
  refine ⟨hsite.first_le, hsite.isAligned, hsite.here_lt, ?_, hsite.addresses, hsite.placeholders⟩
  rw [Draft.maxMarkers]
  omega

end Site

/-! ### Actions on drafts -/

/-- On every machine that holds the draft, the action gives the answer and leaves the draft in the
result, or faults if there is none. -/
def Performs {α : Type} (first : Nat) (action : WordM α) (draft : Draft) (result : Option (α × Draft)) : Prop :=
  ∀ m, Site first draft m →
    match result with
    | none => ∃ fault after, action m = .error fault after
    | some (answer, next) =>
      ∃ after, action m = .ok answer after ∧ Site first next after ∧ Worked first m after

namespace Performs

variable {α β : Type} {first : Nat} {draft middle : Draft}

theorem pure (answer : α) : Performs first (Pure.pure answer) draft (some (answer, draft)) :=
  fun m hsite => ⟨m, rfl, hsite, Worked.refl first m⟩

theorem throw (fault : Fault) : Performs first (MonadExcept.throw fault : WordM α) draft none :=
  fun m _ => ⟨fault, m, rfl⟩

theorem ask {question : Machine → Except Fault α} {answer : α}
    (hquestion : ∀ m, Site first draft m → question m = .ok answer) :
    Performs first (WordM.ask question) draft (some (answer, draft)) := by
  intro m hsite
  refine ⟨m, ?_, hsite, Worked.refl first m⟩
  rw [WordM.ask, hquestion m hsite]

theorem bind {action : WordM α} {rest : α → WordM β} {answer : α} {result : Option (β × Draft)}
    (hact : Performs first action draft (some (answer, middle))) (hrest : Performs first (rest answer) middle result) :
    Performs first (action >>= rest) draft result := by
  intro m hsite
  obtain ⟨between, hok, hmid, hwork⟩ := hact m hsite
  have hres := hrest between hmid
  match result with
  | none =>
    obtain ⟨fault, after, herror⟩ := hres
    exact ⟨fault, after, (bind_of_ok hok).trans herror⟩
  | some (answer, next) =>
    obtain ⟨after, hafter, hnext, hworked'⟩ := hres
    exact ⟨after, (bind_of_ok hok).trans hafter, hnext, hwork.trans hworked'⟩

theorem bind_none {action : WordM α} {rest : α → WordM β} (hact : Performs first action draft none) :
    Performs first (action >>= rest) draft none := by
  intro m hsite
  obtain ⟨fault, after, herror⟩ := hact m hsite
  exact ⟨fault, after, bind_of_error herror⟩

theorem of_ok {action : WordM Unit} {result : Option Draft} {before after : Machine}
    (hperforms : Performs first action draft (result.map fun next => ((), next)))
    (hsite : Site first draft before) (hact : action before = .ok () after) :
    ∃ next, result = some next ∧ Site first next after ∧ Worked first before after := by
  have houtcome := hperforms before hsite
  cases hres : result with
  | none =>
    rw [hres] at houtcome
    obtain ⟨fault, last, herror⟩ := houtcome
    cases hact.symm.trans herror
  | some next =>
    rw [hres] at houtcome
    obtain ⟨last, hok, hnext, hwork⟩ := houtcome
    cases hact.symm.trans hok
    exact ⟨next, rfl, hnext, hwork⟩

theorem seq {action : WordM α} {rest : α → WordM Unit} {step : Option Draft} {answer : α}
    {other : Draft → Option Draft}
    (hact : Performs first action draft (step.map fun next => (answer, next)))
    (hrest : ∀ next, step = some next →
      Performs first (rest answer) next ((other next).map fun last => ((), last))) :
    Performs first (action >>= rest) draft ((step.bind other).map fun last => ((), last)) := by
  cases hstep : step with
  | none =>
    rw [hstep] at hact
    exact .bind_none hact
  | some next =>
    rw [hstep] at hact
    exact .bind hact (hrest next hstep)

theorem assume {action : WordM α} {result : Option (α × Draft)}
    (hperforms : draft.Sound first → Performs first action draft result) : Performs first action draft result :=
  fun m hsite => hperforms hsite.sound m hsite

end Performs

namespace WordM

variable {first : Nat} {draft : Draft}

theorem performs_here : Performs first here draft (some (draft.here, draft)) :=
  .ask fun _ hsite => congrArg Except.ok hsite.here_eq

theorem performs_markerDepth : Performs first markerDepth draft (some (draft.markers.length, draft)) := by
  refine .ask fun m hsite => congrArg Except.ok ?_
  have htop := hsite.top_eq
  rw [Stack.depth]
  omega

theorem performs_comma (value : Cell) :
    Performs first (comma value) draft ((draft.emit value).map fun next => ((), next)) := by
  intro m hsite
  have hhere := hsite.here_eq
  have hnames := hsite.names_eq
  rw [Draft.emit]
  by_cases hfull : draft.names < draft.here + 4
  · rw [if_pos hfull]
    refine ⟨.dictionaryOverflow, m, ?_⟩
    rw [comma, onDictionary, Dictionary.comma, hhere, hnames, if_pos hfull]
    rfl
  · rw [if_neg hfull]
    have horder := order
    have hnamesLe := hsite.names_le
    have hsize := hsite.bounded.size_eq
    have halign := hsite.isAligned
    have hfst := hsite.first_le
    have hdict := @Dictionary.comma_of_room m.dictionary m.memory value (by omega)
      (by omega) (by omega)
    have hok : comma value m = .ok () { m with
        dictionary := { m.dictionary with here := m.dictionary.here + 4 }
        memory := m.memory.setCell m.dictionary.here value } := by
      rw [comma, onDictionary, bind_of_ok hdict]
      rfl
    rw [hhere] at hok
    have hset := sameOutside_setCell m.memory draft.here value
    refine ⟨_, hok, ⟨Keeps.of_ok hsite.bounded hok, rfl, hnames, hsite.start_le, ?_, ?_, ?_,
      hsite.top_eq, ?_, hsite.addresses, ?_⟩, ⟨rfl, rfl, ?_⟩⟩
    · change first ≤ draft.here + 4
      omega
    · change (draft.here + 4) % 4 = 0
      omega
    · rintro addr ⟨hlow, hhigh, hmod⟩
      change addr + 4 ≤ draft.here + 4 at hhigh
      change (m.memory.setCell draft.here value).cellAt addr = Draft.put draft.cells draft.here value addr
      by_cases heq : addr = draft.here
      · subst heq
        rw [cellAt_setCell _ _ _ (by omega), Draft.put_self]
      · rw [cellAt_setCell_of_apart _ _ (.inl (by omega)), Draft.put_of_ne _ _ heq]
        exact hsite.cells addr ⟨hlow, by omega, hmod⟩
    · refine hsite.held.frame hset fun addr hlow _ hin => ?_
      have htop := hsite.top_ge
      rw [holds_mk] at hin
      omega
    · intro marker hmark hfwd
      obtain ⟨hlow, hhigh, hmod⟩ := hsite.placeholders marker hmark hfwd
      exact ⟨hlow, Nat.le_trans hhigh (Nat.le_add_right _ _), hmod⟩
    · refine hset.mono fun addr hin => .inl ?_
      rw [holds_mk] at hin ⊢
      omega

theorem performs_compile (prim : Prim) :
    Performs first (compile prim) draft ((draft.compile prim).map fun next => ((), next)) :=
  performs_comma (Cell.ofNat prim.token)

theorem performs_acceptNumber (number : Number) :
    Performs first (Interpreter.acceptNumber true number) draft
      ((draft.number number).map fun next => ((), next)) := by
  cases number with
  | single value => exact .seq (performs_compile _) fun _ _ => performs_comma _
  | double value =>
    exact .seq (performs_compile _) fun _ _ => .seq (performs_comma _) fun _ _ => performs_comma _

theorem performs_pushMarker {marker : Marker} (haddr : marker.address < 2 ^ 31)
    (hplace : marker.tag.isForward → draft.InRange first marker.address) :
    Performs first (pushMarker marker) draft ((draft.mark marker).map fun next => ((), next)) := by
  intro m hsite
  have htop := hsite.top_eq
  have hbase := hsite.base_eq
  have hlimit := hsite.limit_eq
  have hhere := hsite.here_le
  rw [Draft.mark, Draft.maxMarkers]
  by_cases hfull : 64 ≤ draft.markers.length
  · rw [if_pos hfull]
    exact ⟨_, _, pushMarker_of_full hsite.bounded marker (by omega)⟩
  · rw [if_neg hfull]
    have hroom : m.control.limit + 8 ≤ m.control.top := by omega
    have hok := pushMarker_of_room hsite.bounded marker hroom
    have hset := Machine.sameOutside_withMarker marker hroom
    refine ⟨_, hok, ⟨Keeps.of_ok hsite.bounded hok, hsite.here_eq, hsite.names_eq, hsite.start_le,
      hsite.first_le, hsite.isAligned, ?_, ?_, hsite.held.withMarker hsite.bounded haddr hroom, ?_, ?_⟩,
      ⟨by simp only [Machine.withMarker], rfl, ?_⟩⟩
    · rintro addr ⟨hlow, hhigh, hmod⟩
      rw [hset.cellAt]
      · exact hsite.cells addr ⟨hlow, hhigh, hmod⟩
      · intro other _ hother hin
        rw [holds_mk] at hin
        change addr + 4 ≤ draft.here at hhigh
        omega
    · change m.control.top - 4 - 4 + 8 * (draft.markers.length + 1) = m.control.base
      omega
    · intro other hother
      rcases List.mem_cons.1 hother with rfl | holder
      · exact haddr
      · exact hsite.addresses other holder
    · intro other hother hfwd
      rcases List.mem_cons.1 hother with rfl | holder
      · exact hplace hfwd
      · exact hsite.placeholders other holder hfwd
    · refine hset.mono fun addr hin => .inr ?_
      rw [holds_mk] at hin
      rw [controlRegion, holds_mk]
      change dictionaryEnd ≤ addr ∧ addr < dictionaryEnd + 512
      omega

theorem performs_popMarker {marker : Marker} {rest : List Marker} (hmarks : draft.markers = marker :: rest) :
    Performs first popMarker draft (some (marker, { draft with markers := rest })) := by
  intro m hsite
  have htop := hsite.top_eq
  have hheld := hsite.held
  have haddrs := hsite.addresses
  have hplaceholders := hsite.placeholders
  rw [hmarks] at htop hheld haddrs hplaceholders
  have hpop := popMarker_of_holds hsite.bounded htop hheld
  refine ⟨m.withoutMarker, hpop, ⟨Keeps.of_ok hsite.bounded hpop, hsite.here_eq, hsite.names_eq,
    hsite.start_le, hsite.first_le, hsite.isAligned, hsite.cells, ?_, hheld.2.2, ?_, ?_⟩,
    ⟨rfl, rfl, Memory.SameOutside.refl _ _⟩⟩
  · rw [List.length_cons] at htop
    change m.control.top + 4 + 4 + 8 * rest.length = m.control.base
    omega
  · exact fun other hother => haddrs other (List.mem_cons_of_mem _ hother)
  · exact fun other hother => hplaceholders other (List.mem_cons_of_mem _ hother)

theorem performs_popMarker_none (hmarks : draft.markers = []) : Performs first popMarker draft none := by
  intro m hsite
  have htop := hsite.top_eq
  rw [hmarks, List.length_nil] at htop
  exact ⟨_, _, popMarker_of_empty (by omega)⟩

theorem performs_topTag : Performs first topTag draft (some (draft.markers.head?.map Marker.tag, draft)) :=
  fun _ hsite => ⟨_, topTag_of_holds hsite.bounded hsite.top_eq hsite.held, hsite, Worked.refl _ _⟩

theorem performs_patch {placeholder : Nat} (hplace : draft.InRange first placeholder) :
    Performs first (patch placeholder) draft (some ((), draft.patch placeholder)) := by
  refine .bind performs_here fun m hsite => ?_
  have hnames := hsite.names_le
  have hsize := hsite.bounded.size_eq
  have horder := order
  have hmeet := hsite.bounded.dictionary.here_le
  rw [hsite.here_eq, hsite.names_eq] at hmeet
  obtain ⟨hlow, hhigh, hmod⟩ := hplace
  have hset := sameOutside_setCell m.memory placeholder
    (Cell.ofNat draft.here - Cell.ofNat placeholder)
  have hok : writeCell placeholder (Cell.ofNat draft.here - Cell.ofNat placeholder) m =
      .ok () { m with
        memory := m.memory.setCell placeholder (Cell.ofNat draft.here - Cell.ofNat placeholder) } := by
    rw [writeCell, onMemory, writeCell_eq_ok _ (by omega) hmod]
  refine ⟨_, hok, ⟨Keeps.of_ok hsite.bounded hok, hsite.here_eq, hsite.names_eq, hsite.start_le,
    hsite.first_le, hsite.isAligned, ?_, hsite.top_eq, ?_, hsite.addresses, hsite.placeholders⟩,
    ⟨rfl, rfl, ?_⟩⟩
  · rintro addr ⟨hlow', hhigh', hmod'⟩
    change (m.memory.setCell _ _).cellAt addr = Draft.put draft.cells placeholder _ addr
    by_cases heq : addr = placeholder
    · subst heq
      rw [cellAt_setCell _ _ _ (by omega), Draft.put_self]
    · rw [cellAt_setCell_of_apart _ _ (by omega), Draft.put_of_ne _ _ heq]
      exact hsite.cells addr ⟨hlow', hhigh', hmod'⟩
  · refine hsite.held.frame hset fun addr hlow' _ hin => ?_
    have htop := hsite.top_ge
    rw [holds_mk] at hin
    omega
  · refine hset.mono fun addr hin => .inl ?_
    rw [holds_mk] at hin ⊢
    rw [hsite.names_eq]
    omega

/-! #### Branches -/

theorem performs_compileBranch (jump : ThreadWord) :
    Performs first (compileBranch jump) draft
      ((draft.emitBranch jump).map fun next => (draft.here + 4, next)) := by
  rw [compileBranch, Draft.emitBranch]
  have hcompile := @performs_compile first draft (.thread jump)
  cases hcall : draft.compile (.thread jump) with
  | none =>
    rw [hcall] at hcompile
    exact .bind_none hcompile
  | some next =>
    rw [hcall] at hcompile
    have hhere : next.here = draft.here + 4 := by
      rw [Draft.compile, Draft.emit] at hcall
      split at hcall
      · cases hcall
      · cases hcall
        rfl
    refine .bind hcompile (.bind performs_here ?_)
    have hcomma := @performs_comma first next 0
    rw [bind_some]
    cases hzero : next.emit 0 with
    | none =>
      rw [hzero] at hcomma
      exact .bind_none hcomma
    | some last =>
      rw [hzero] at hcomma
      refine .bind hcomma ?_
      rw [hhere]
      exact .pure _

theorem performs_branchForward (jump : ThreadWord) (tag : Tag) :
    Performs first (branchForward jump tag) draft
      ((draft.branchForward jump tag).map fun next => ((), next)) := by
  refine .assume fun ⟨hfst, halign, hhere, _, _, _⟩ => ?_
  have hbr := @performs_compileBranch first draft jump
  rw [branchForward, Draft.branchForward]
  rw [Draft.emitBranch_eq] at hbr ⊢
  by_cases hfull : draft.names < draft.here + 8
  · rw [if_pos hfull] at hbr ⊢
    exact .bind_none hbr
  · rw [if_neg hfull] at hbr ⊢
    refine .bind hbr (performs_pushMarker ?_ fun _ => ⟨?_, Nat.le_refl _, ?_⟩)
    · change draft.here + 4 < 2 ^ 31
      omega
    · change first ≤ draft.here + 4
      omega
    · change (draft.here + 4) % 4 = 0
      omega

theorem performs_markTarget (tag : Tag) (htag : tag.isForward = false) :
    Performs first (markTarget tag) draft ((draft.markTarget tag).map fun next => ((), next)) := by
  refine .assume fun hsound => .bind performs_here (performs_pushMarker ?_ fun hfwd => ?_)
  · exact Nat.lt_trans hsound.here_lt (by decide)
  · rw [htag] at hfwd
    cases hfwd

/-! #### Taking markers -/

theorem performs_popUntil (accept skip : Tag → Bool) {steps : Nat} {markers : List Marker}
    (hsteps : markers.length < steps) (passed : List Marker) :
    Performs first (popUntil accept skip steps passed) { draft with markers }
      ((Draft.split accept skip markers).map fun (above, found, below) =>
        ((found, above.reverse ++ passed), { draft with markers := below })) := by
  induction markers generalizing steps passed with
  | nil =>
    obtain ⟨steps, rfl⟩ : ∃ fewer, steps = fewer + 1 := ⟨steps - 1, by omega⟩
    exact .bind_none (performs_popMarker_none rfl)
  | cons marker rest ih =>
    rw [List.length_cons] at hsteps
    obtain ⟨steps, rfl⟩ : ∃ fewer, steps = fewer + 1 := ⟨steps - 1, by omega⟩
    rw [popUntil, Draft.split]
    refine .bind (performs_popMarker rfl) ?_
    by_cases haccept : accept marker.tag
    · rw [if_pos haccept, if_pos haccept]
      exact .pure _
    · rw [if_neg haccept, if_neg haccept]
      by_cases hskip : skip marker.tag
      · rw [if_pos hskip, if_pos hskip]
        have hrest := @ih steps (by omega) (marker :: passed)
        cases hsplit : Draft.split accept skip rest with
        | none =>
          rw [hsplit] at hrest
          exact hrest
        | some parts =>
          rw [hsplit] at hrest
          simpa using hrest
      · rw [if_neg hskip, if_neg hskip]
        exact .throw _

/-- Markers are put back the deepest first. -/
theorem performs_pushMarkers {markers : List Marker}
    (haddrs : ∀ marker ∈ markers, marker.address < 2 ^ 31)
    (hplaces : ∀ marker ∈ markers, marker.tag.isForward → draft.InRange first marker.address) :
    Performs first (markers.forM pushMarker) draft
      (if Draft.maxMarkers < markers.length + draft.markers.length then none
        else some ((), { draft with markers := markers.reverse ++ draft.markers })) := by
  induction markers generalizing draft with
  | nil =>
    refine .assume fun hsound => ?_
    have hlen := hsound.length_le
    rw [if_neg (by rw [List.length_nil]; omega)]
    exact .pure _
  | cons marker rest ih =>
    have hpush := performs_pushMarker (haddrs marker List.mem_cons_self)
      (hplaces marker List.mem_cons_self)
    rw [List.length_cons]
    rw [Draft.mark] at hpush
    by_cases hfull : Draft.maxMarkers ≤ draft.markers.length
    · rw [if_pos hfull] at hpush
      rw [if_pos (by omega)]
      exact .bind_none hpush
    · rw [if_neg hfull] at hpush
      refine .bind hpush ?_
      have hrest := @ih { draft with markers := marker :: draft.markers }
        (fun other hother => haddrs other (List.mem_cons_of_mem _ hother))
        (fun other hother => hplaces other (List.mem_cons_of_mem _ hother))
      rw [List.length_cons] at hrest
      rw [show rest.length + 1 + draft.markers.length = rest.length + (draft.markers.length + 1) by omega,
        List.reverse_cons, List.append_assoc]
      exact hrest

theorem performs_popExpected (tags : List Tag) (pastWhile : Bool) :
    Performs first (popExpected tags pastWhile) draft (draft.take tags pastWhile) := by
  refine .assume fun hsound => .bind performs_markerDepth ?_
  have hpop := @performs_popUntil first draft tags.contains (fun tag => pastWhile && tag == .while_)
    (draft.markers.length + 1) draft.markers (by omega) []
  rw [Draft.take]
  cases hsplit : Draft.split tags.contains (fun tag => pastWhile && tag == .while_) draft.markers with
  | none =>
    rw [hsplit] at hpop
    exact .bind_none hpop
  | some parts =>
    obtain ⟨above, found, below⟩ := parts
    obtain ⟨hmarks, _, _⟩ := Draft.of_split_eq_some hsplit
    have hlen := hsound.length_le
    rw [hmarks, List.length_append, List.length_cons] at hlen
    have hmember : ∀ marker ∈ above.reverse, marker ∈ draft.markers := by
      intro marker hmark
      rw [hmarks]
      exact List.mem_append_left _ (List.mem_reverse.1 hmark)
    have hback := @performs_pushMarkers first { draft with markers := below } above.reverse
      (fun marker hmark => hsound.addresses marker (hmember marker hmark))
      (fun marker hmark => hsound.placeholders marker (hmember marker hmark))
    rw [if_neg (by rw [List.length_reverse]; change ¬ _ < _ + below.length; omega),
      List.reverse_reverse] at hback
    simp only [hsplit, map_some, List.append_nil] at hpop
    exact .bind hpop (.bind hback (.pure _))

theorem performs_resolveForward {tags : List Tag} (pastWhile : Bool)
    (htags : ∀ tag ∈ tags, tag.isForward) :
    Performs first (resolveForward tags pastWhile) draft
      ((draft.resolveForward tags pastWhile).map fun next => ((), next)) := by
  refine .assume fun hsound => ?_
  have hpop := @performs_popExpected first draft tags pastWhile
  rw [Draft.resolveForward]
  rw [Draft.take] at hpop ⊢
  cases hsplit : Draft.split tags.contains (fun tag => pastWhile && tag == .while_) draft.markers with
  | none =>
    rw [hsplit] at hpop
    exact .bind_none hpop
  | some parts =>
    obtain ⟨above, found, below⟩ := parts
    obtain ⟨hmarks, haccept, _⟩ := Draft.of_split_eq_some hsplit
    have hfound := hsound.placeholders found (by rw [hmarks]; simp) (htags found.tag (List.contains_iff_mem.1 haccept))
    rw [hsplit] at hpop
    exact .bind hpop (performs_patch hfound)

theorem performs_resolveRun {tag : Tag} (htag : tag.isForward) {steps : Nat} (hsteps : draft.markers.length ≤ steps) :
    Performs first (resolveRun tag steps) draft (some ((), draft.resolveRun tag)) := by
  induction steps generalizing draft with
  | zero =>
    have hmarks : draft.markers = [] := List.eq_nil_of_length_eq_zero (by omega)
    rw [Draft.resolveRun_of_done (by rw [hmarks]; nofun)]
    exact .pure _
  | succ steps ih =>
    refine .assume fun hsound => .bind performs_topTag ?_
    by_cases htop : draft.markers.head?.map Marker.tag = some tag
    · rw [if_pos htop]
      obtain ⟨marker, hhead, rfl⟩ := map_eq_some_iff.1 htop
      obtain ⟨rest, hmarks⟩ := List.head?_eq_some_iff.1 hhead
      rw [Draft.resolveRun_of_tag hmarks]
      rw [hmarks, List.length_cons] at hsteps
      have hplace := hsound.placeholders marker (by rw [hmarks]; exact List.mem_cons_self) htag
      refine .bind (performs_popMarker hmarks) (.bind (performs_patch hplace) (ih ?_))
      change rest.length ≤ steps
      omega
    · rw [if_neg htop, Draft.resolveRun_of_done htop]
      exact .pure _

theorem performs_branchBack (jump : ThreadWord) (tags : List Tag) :
    Performs first (branchBack jump tags) draft
      ((draft.branchBack jump tags).map fun next => ((), next)) := by
  have hpop := @performs_popExpected first draft tags true
  rw [branchBack, Draft.branchBack]
  cases htake : draft.take tags true with
  | none =>
    rw [htake] at hpop
    exact .bind_none hpop
  | some taken =>
    rw [htake] at hpop
    refine .bind hpop (.seq (performs_compile _) fun next _ => .bind performs_here (performs_comma _))

theorem performs_closeMarker (tag : Tag) :
    Performs first (closeMarker tag) draft ((draft.closeMarker tag).map fun next => ((), next)) := by
  rw [Draft.closeMarker]
  cases hmarks : draft.markers with
  | nil => exact .bind_none (performs_popMarker_none hmarks)
  | cons marker rest =>
    refine .bind (performs_popMarker hmarks) ?_
    by_cases htag : marker.tag = tag
    · rw [if_neg (not_not_intro htag)]
      simp only [if_pos htag]
      exact .pure _
    · rw [if_pos htag]
      simp only [if_neg htag]
      exact .throw _

end WordM

/-! ### Control words -/

namespace ControlWord

open WordM

variable {first : Nat} {draft : Draft}

theorem performs_divide {tags : List Tag} (pastWhile : Bool) (tag : Tag)
    (htags : ∀ tag ∈ tags, tag.isForward) :
    Performs first (divide tags pastWhile tag) draft
      ((draft.divide tags pastWhile tag).map fun next => ((), next)) := by
  refine .assume fun ⟨hfst, halign, hhere, _, _, _⟩ => .seq (performs_compileBranch _) fun branched hbr =>
    .seq (performs_resolveForward _ htags) fun resolved hresolve => performs_pushMarker ?_ fun _ => ?_
  · change draft.here + 4 < 2 ^ 31
    omega
  · have hend : resolved.here = draft.here + 8 := by
      rw [Draft.here_of_resolveForward hresolve]
      rw [Draft.emitBranch_eq] at hbr
      split at hbr
      · cases hbr
      · cases hbr
        rfl
    refine ⟨?_, ?_, ?_⟩
    · change first ≤ draft.here + 4
      omega
    · change draft.here + 4 + 4 ≤ resolved.here
      omega
    · change (draft.here + 4) % 4 = 0
      omega

theorem performs_openLoop (enter : ThreadWord) :
    Performs first (openLoop enter) draft ((draft.openLoop enter).map fun next => ((), next)) :=
  .seq (performs_markTarget _ rfl) fun _ _ =>
    .seq (performs_branchForward _ _) fun _ _ => performs_markTarget _ rfl

theorem performs_closeLoop (step : ThreadWord) :
    Performs first (closeLoop step) draft ((draft.closeLoop step).map fun next => ((), next)) :=
  .seq (performs_branchBack _ _) fun _ _ =>
    .bind performs_markerDepth (.bind (performs_resolveRun rfl (Nat.le_refl _))
      (.seq (performs_resolveForward _ (by decide)) fun _ _ => performs_closeMarker _))

theorem performs_fileLeave {placeholder : Nat} (hplace : draft.InRange first placeholder) :
    Performs first
      (do
        let depth ← markerDepth
        let (back, above) ← popUntil (· == .doBack) (fun _ => true) (depth + 1) []
        pushMarker ⟨.leave, placeholder⟩
        pushMarker back
        above.forM pushMarker)
      draft ((draft.fileLeave placeholder).map fun next => ((), next)) := by
  refine .assume fun hsound => .bind performs_markerDepth ?_
  have hpop := @performs_popUntil first draft (· == .doBack) (fun _ => true)
    (draft.markers.length + 1) draft.markers (by omega) []
  rw [Draft.fileLeave]
  cases hsplit : Draft.split (· == .doBack) (fun _ => true) draft.markers with
  | none =>
    rw [hsplit] at hpop
    exact .bind_none hpop
  | some parts =>
    obtain ⟨above, back, below⟩ := parts
    obtain ⟨hmarks, _, _⟩ := Draft.of_split_eq_some hsplit
    have hlen : draft.markers.length = above.length + (below.length + 1) := by
      rw [hmarks, List.length_append, List.length_cons]
    have hmember : ∀ marker ∈ back :: above.reverse, marker ∈ draft.markers := by
      intro marker hmark
      rw [hmarks]
      rcases List.mem_cons.1 hmark with rfl | habove
      · exact List.mem_append_right _ List.mem_cons_self
      · exact List.mem_append_left _ (List.mem_reverse.1 habove)
    have hback := @performs_pushMarkers first { draft with markers := below }
      (⟨.leave, placeholder⟩ :: back :: above.reverse)
      (List.forall_mem_cons.2 ⟨?_, fun marker hmark => hsound.addresses marker (hmember marker hmark)⟩)
      (List.forall_mem_cons.2 ⟨fun _ => hplace,
        fun marker hmark => hsound.placeholders marker (hmember marker hmark)⟩)
    · simp only [hsplit, map_some, List.append_nil] at hpop
      refine .bind hpop ?_
      simp only [List.length_cons, List.length_reverse, List.reverse_cons, List.reverse_reverse,
        List.append_assoc, List.cons_append, List.nil_append] at hback
      rw [bind_eq_bind, bind_some]
      by_cases hfull : Draft.maxMarkers ≤ draft.markers.length
      · rw [if_pos (by omega)] at hback
        simp only [if_pos hfull]
        exact hback
      · rw [if_neg (by omega)] at hback
        simp only [if_neg hfull]
        exact hback
    · obtain ⟨_, hhigh, _⟩ := hplace
      have hhere := hsound.here_lt
      change placeholder < 2 ^ 31
      omega

theorem performs_leaveLoop :
    Performs first leaveLoop draft (draft.leaveLoop.map fun next => ((), next)) :=
  .seq (performs_compile _) fun next _ => .assume fun hnext =>
    .seq (performs_compileBranch _) fun branched hbr => by
      rw [Draft.emitBranch_eq] at hbr
      split at hbr
      · cases hbr
      · have hend : branched.here = next.here + 8 := by
          cases hbr
          rfl
        refine performs_fileLeave ⟨?_, ?_, ?_⟩
        · have hfst := hnext.first_le
          omega
        · omega
        · have halign := hnext.isAligned
          omega

theorem performs (word : ControlWord) :
    Performs first word.perform draft ((word.draft draft).map fun next => ((), next)) := by
  cases word with
  | if_ | while_ | of_ => exact performs_branchForward _ _
  | else_ => exact performs_divide _ _ (by decide)
  | endOf => exact performs_divide _ _ (by decide)
  | then_ => exact performs_resolveForward _ (by decide)
  | begin | case_ => exact performs_markTarget _ rfl
  | again | until_ => exact performs_branchBack _ _
  | repeat_ =>
    exact .seq (performs_branchBack _ _) fun _ _ => performs_resolveForward _ (by decide)
  | do_ | questionDo => exact performs_openLoop _
  | loop | plusLoop => exact performs_closeLoop _
  | leave => exact performs_leaveLoop
  | endCase =>
    exact .seq (performs_compile _) fun _ _ => .bind performs_markerDepth
      (.bind (performs_resolveRun rfl (Nat.le_refl _)) (performs_closeMarker _))

end ControlWord

end ThreadedForth
