
import ThreadedForth.Proofs.Dictionary.History

/-!
# Links

What the chain of headers needs to stay whole. Each operation writes a few regions; the chain survives an
operation as long as none of them meets the link cell of a word that was created before, wherever `here`
stands. Then following the links from the newest word comes to zero after exactly as many steps as words
were created.

Nothing more can be said of a dictionary whose `here` may be moved down at will: what is laid down next can
cut the chain short or close it to a ring.
-/

namespace ThreadedForth.Dictionary

open Header List

/-! ### Following links -/

/-- The header that a number of links lead to. -/
def follow (memory : Memory) : Nat → Nat → Nat
  | 0, header => header
  | steps + 1, header => follow memory steps (Cell.toAddress (memory.cellAt (linkField header)))

theorem follow_ring {memory : Memory} {header : Nat}
    (hlink : Cell.toAddress (memory.cellAt (linkField header)) = header) (steps : Nat) :
    follow memory steps header = header := by
  induction steps with
  | zero => rfl
  | succ steps ih => rw [follow, hlink, ih]

section Chain

variable {memory : Memory} {entries : List Header}

theorem Walkable.cellAt_eq (hwalk : Walkable memory entries) {entry : Header} (hentry : entry ∈ entries) :
    entry.address % 4 = 0 ∧ entry.address + 4 ≤ memory.size ∧
      Cell.toAddress (memory.cellAt (linkField entry.address)) = entry.link := by
  obtain ⟨_, cell, hread, hcell⟩ := hwalk entry hentry
  obtain ⟨hrange, halign, rfl⟩ := Memory.of_readCell_eq_ok hread
  exact ⟨halign, hrange, hcell⟩

theorem follow_length (hwalk : Walkable memory entries) {latest : Nat} (hlinked : Linked latest entries) :
    follow memory entries.length latest = 0 := by
  induction entries generalizing latest with
  | nil => exact hlinked
  | cons entry older ih =>
    obtain ⟨rfl, hrest⟩ := hlinked
    rw [length_cons, follow, (hwalk.cellAt_eq mem_cons_self).2.2]
    exact ih (fun other hother => hwalk other (mem_cons_of_mem _ hother)) hrest

theorem follow_ne_zero (hwalk : Walkable memory entries) {latest : Nat} (hlinked : Linked latest entries)
    {steps : Nat} (hsteps : steps < entries.length) : follow memory steps latest ≠ 0 := by
  induction entries generalizing latest steps with
  | nil => cases hsteps
  | cons entry older ih =>
    obtain ⟨rfl, hrest⟩ := hlinked
    cases steps with
    | zero => exact (hwalk entry mem_cons_self).1
    | succ steps =>
      rw [follow, (hwalk.cellAt_eq mem_cons_self).2.2]
      exact ih (fun other hother => hwalk other (mem_cons_of_mem _ hother)) hrest
        (by rw [length_cons] at hsteps; omega)

theorem searchFrom_length {α : Type} (visit : Nat → Except Fault (Option α)) (hwalk : Walkable memory entries)
    {latest : Nat} (hlinked : Linked latest entries) (more : Nat) :
    searchFrom memory visit (entries.length + more) latest = searchFrom memory visit entries.length latest := by
  induction entries generalizing latest with
  | nil =>
    cases more with
    | zero => rfl
    | succ more => exact if_pos hlinked
  | cons entry older ih =>
    obtain ⟨rfl, hrest⟩ := hlinked
    obtain ⟨hpos, cell, hread, hcell⟩ := hwalk entry mem_cons_self
    have htail := @ih (fun other hother => hwalk other (mem_cons_of_mem _ hother)) entry.link hrest
    rw [length_cons, Nat.add_right_comm, searchFrom, searchFrom, if_neg hpos, if_neg hpos]
    cases hvisit : visit entry.address with
    | error fault => rfl
    | ok answer =>
      cases answer with
      | some found => rfl
      | none =>
        change (memory.readCell _ >>= fun link => searchFrom memory visit _ (Cell.toAddress link)) =
          (memory.readCell _ >>= fun link => searchFrom memory visit _ (Cell.toAddress link))
        rw [hread]
        change searchFrom memory visit _ (Cell.toAddress cell) = searchFrom memory visit _ (Cell.toAddress cell)
        rw [hcell, htail]

theorem Walkable.frame {area : Nat → Prop} {after : Memory} (hwalk : Walkable memory entries)
    (hsame : Memory.SameOutside area memory after)
    (hspared : ∀ entry ∈ entries, ∀ addr, entry.address ≤ addr → addr < entry.address + 4 →
      ¬ area addr) : Walkable after entries := by
  intro entry hentry
  obtain ⟨halign, hrange, hlink⟩ := hwalk.cellAt_eq hentry
  refine ⟨(hwalk entry hentry).1, after.cellAt (linkField entry.address), ?_, ?_⟩
  · exact Memory.readCell_eq_ok (by rw [hsame.size]; exact hrange) halign
  · rw [linkField] at hlink ⊢
    rw [hsame.cellAt (hspared entry hentry)]
    exact hlink

end Chain

/-! ### What an operation writes -/

namespace Change

/-- The header and the name of a new word. -/
def entryRegions (dictionary : Dictionary) (nameLength : Nat) : List Region :=
  [⟨aligned dictionary.here, aligned dictionary.here + size⟩,
    ⟨dictionary.names - (nameLength + 1), dictionary.names⟩]

/-- The bytes that the operation writes if it succeeds. -/
def writes (dictionary : Dictionary) : Change → List Region
  | create name _ _ => entryRegions dictionary (Utf8.encode name).length
  | createNameless _ => entryRegions dictionary 0
  | setFlag header _ | clearFlag header _ => [⟨flagsField header, flagsField header + 4⟩]
  | setDoes header _ _ => [⟨doesField header, header + size⟩]
  | comma _ => [⟨dictionary.here, dictionary.here + 4⟩]
  | commaByte _ => [⟨dictionary.here, dictionary.here + 1⟩]
  | align | allot _ => []

/-- The operation writes on no link cell of a word that was created before. -/
def Spares (dictionary : Dictionary) (created : List Nat) (change : Change) : Prop :=
  ∀ region ∈ change.writes dictionary, ∀ header ∈ created,
    region.Apart ⟨linkField header, linkField header + 4⟩

instance (dictionary : Dictionary) (created : List Nat) (change : Change) :
    Decidable (change.Spares dictionary created) :=
  inferInstanceAs (Decidable (∀ _ ∈ _, ∀ _ ∈ _, _))

/-- The headers of the created words, newest first, once the operation has succeeded with an answer. -/
def chronicle (created : List Nat) (answer : Option Nat) : List Nat :=
  answer.toList.map ofToken ++ created

end Change

/-- The states of a dictionary over the region up to `finish`, each with the headers that were created so far,
after any operations. `here` may be moved anywhere inside the region, but no operation writes on a link. -/
inductive Built (finish : Nat) : Dictionary × Memory → List Nat → Prop where
  | new {start : Nat} {memory : Memory} (hstart : 0 < start) (hfin : finish ≤ memory.size)
      (hsize : memory.size < 2 ^ 31) : Built finish (Dictionary.new start finish, memory) []
  | done {state after : Dictionary × Memory} {created : List Nat} {change : Change} {answer : Option Nat}
      (hstate : Built finish state created) (hspares : change.Spares state.1 created)
      (happly : change.apply state = .ok answer after) : Built finish after (Change.chronicle created answer)
  | failed {state after : Dictionary × Memory} {created : List Nat} {change : Change} {fault : Fault}
      (hstate : Built finish state created) (happly : change.apply state = .error fault after) :
      Built finish after created

/-! ### The chain along a history -/

/-- The created words hang together. Every one of them has taken a byte for its name at least. -/
structure Strung (finish : Nat) (dictionary : Dictionary) (memory : Memory) (created : List Nat) : Prop where
  size_lt : memory.size < 2 ^ 31
  finish_le : finish ≤ memory.size
  start_pos : 0 < dictionary.start
  start_le : dictionary.start ≤ dictionary.here
  length_le : dictionary.names + created.length ≤ finish
  chain : ∃ entries : List Header, entries.map Header.address = created ∧ Linked dictionary.latest entries ∧
    Walkable memory entries

namespace Strung

variable {finish : Nat} {dictionary : Dictionary} {memory : Memory} {created : List Nat}

theorem move (hstrung : Strung finish dictionary memory created) {here : Nat} {after : Memory}
    (hstart : dictionary.start ≤ here) {regions : List Region}
    (hsame : Memory.SameOutside (fun addr => ∃ region ∈ regions, region.Holds addr) memory after)
    (hspares : ∀ region ∈ regions, ∀ header ∈ created,
      region.Apart ⟨linkField header, linkField header + 4⟩) :
    Strung finish { dictionary with here } after created := by
  obtain ⟨entries, rfl, hlinked, hwalk⟩ := hstrung.chain
  refine ⟨hsame.size ▸ hstrung.size_lt, hsame.size ▸ hstrung.finish_le, hstrung.start_pos, hstart,
    hstrung.length_le, entries, rfl, hlinked, hwalk.frame hsame ?_⟩
  rintro entry hentry addr hlow hhigh ⟨region, hregion, hin⟩
  have hapart := hspares region hregion entry.address (mem_map_of_mem hentry)
  simp only [Region.Apart, linkField] at hapart
  rw [Region.Holds] at hin
  omega

variable (hstrung : Strung finish dictionary memory created)

include hstrung

theorem write {after : Memory} {region : Region} (hsame : Memory.SameOutside region.Holds memory after)
    (hspares : ∀ header ∈ created, region.Apart ⟨linkField header, linkField header + 4⟩) {here : Nat}
    (hstart : dictionary.start ≤ here) : Strung finish { dictionary with here } after created := by
  refine hstrung.move hstart
    (hsame.mono fun addr hin => ⟨region, mem_singleton_self region, hin⟩) ?_
  intro other hother
  rw [mem_singleton.1 hother]
  exact hspares

theorem latest_lt : dictionary.latest < 2 ^ 31 := by
  obtain ⟨entries, _, hlinked, hwalk⟩ := hstrung.chain
  have hsize := hstrung.size_lt
  cases entries with
  | nil =>
    rw [show dictionary.latest = 0 from hlinked]
    omega
  | cons entry older =>
    have hrange := (@Walkable.cellAt_eq _ _ hwalk entry mem_cons_self).2.1
    rw [show dictionary.latest = entry.address from hlinked.1]
    omega

/-- A new word is created, and its header and its name are written away from the links. -/
theorem enter {name : List UInt8} (flags code : Cell) (hroom : name.length + 1 ≤ dictionary.names)
    (hmeet : aligned dictionary.here + size < dictionary.names - (name.length + 1))
    (hspares : ∀ region ∈ Change.entryRegions dictionary name.length, ∀ header ∈ created,
      region.Apart ⟨linkField header, linkField header + 4⟩) :
    Strung finish
      { dictionary with
        here := aligned dictionary.here + size
        names := dictionary.names - (name.length + 1)
        latest := aligned dictionary.here }
      (entered memory (aligned dictionary.here) (dictionary.names - (name.length + 1)) dictionary.latest
        name flags code)
      (aligned dictionary.here :: created) := by
  have hlow := le_aligned dictionary.here
  have halign := aligned_mod dictionary.here
  have hstart := hstrung.start_le
  have hpos := hstrung.start_pos
  have hlen := hstrung.length_le
  have hfin := hstrung.finish_le
  have hlatest := hstrung.latest_lt
  generalize hhdr : aligned dictionary.here = header at hlow halign hmeet
  generalize hnameAddress : dictionary.names - (name.length + 1) = nameAddress at hmeet
  have hsame : Memory.SameOutside
      (fun addr => ∃ region ∈ Change.entryRegions dictionary name.length, region.Holds addr) memory
      (entered memory header nameAddress dictionary.latest name flags code) := by
    refine ((sameOutside_nameSet memory nameAddress name).mono fun addr hin => ?_).trans
      ((sameOutside_headerSet _ header _ _ flags 0 code).mono fun addr hin => ?_)
    · refine ⟨_, mem_cons_of_mem _ (mem_singleton_self _), ?_⟩
      rw [Region.holds_mk] at hin ⊢
      omega
    · refine ⟨_, mem_cons_self, ?_⟩
      rw [hhdr]
      exact hin
  have hframed := hstrung.move hstart hsame hspares
  obtain ⟨entries, hmap, hlinked, hwalk⟩ := hframed.chain
  have hsize : (entered memory header nameAddress dictionary.latest name flags code).size = memory.size :=
    hsame.size
  rw [size] at hmeet
  constructor
  case size_lt => exact hframed.size_lt
  case finish_le => exact hframed.finish_le
  case start_pos => exact hpos
  case start_le =>
    change dictionary.start ≤ header + 20
    omega
  case length_le =>
    change nameAddress + (created.length + 1) ≤ finish
    omega
  case chain =>
    refine ⟨{ address := header, link := dictionary.latest, name := "", flags, does := 0, code } :: entries,
      by rw [map_cons, hmap], ⟨rfl, hlinked⟩, ?_⟩
    rintro entry (_ | ⟨_, hentry⟩)
    · have hlink := (cellAt_headerSet (nameSet memory nameAddress name) header
        (Cell.ofNat dictionary.latest) (Cell.ofNat nameAddress) flags 0 code
        (by rw [size_nameSet, size]; omega)).1
      have hread := @Memory.readCell_eq_ok
        (entered memory header nameAddress dictionary.latest name flags code) header (by omega) halign
      exact ⟨show header ≠ 0 by omega, Cell.ofNat dictionary.latest,
        hread.trans (congrArg Except.ok hlink), Cell.toAddress_ofNat hlatest⟩
    · exact hwalk entry hentry

theorem names_le_size : dictionary.names ≤ memory.size := by
  have hlen := hstrung.length_le
  have hfin := hstrung.finish_le
  omega

/-- An operation that spares the links and has room leaves the chain whole. -/
theorem outcome {change : Change} (hspares : change.Spares dictionary created) (hfits : change.Fits dictionary) :
    Strung finish (change.outcome dictionary memory).1 (change.outcome dictionary memory).2
      (Change.chronicle created (change.answer dictionary)) := by
  have hstart := hstrung.start_le
  have hwrite {region : Region} (hregion : change.writes dictionary = [region]) :
      ∀ header ∈ created, region.Apart ⟨linkField header, linkField header + 4⟩ :=
    hspares region (hregion ▸ mem_singleton_self region)
  cases change with
  | create name flags code => exact hstrung.enter flags code hfits.2.1 hfits.2.2 hspares
  | createNameless code => exact hstrung.enter Header.hidden code hfits.2.1 hfits.2.2 hspares
  | setFlag header flag => exact hstrung.write (Memory.sameOutside_setCell memory _ _) (hwrite rfl) hstart
  | clearFlag header flag => exact hstrung.write (Memory.sameOutside_setCell memory _ _) (hwrite rfl) hstart
  | setDoes header code does =>
    exact hstrung.write (sameOutside_setDoes header code (Cell.ofNat does) memory) (hwrite rfl) hstart
  | comma value =>
    exact hstrung.write (Memory.sameOutside_setCell memory _ value) (hwrite rfl) (Nat.le_add_right_of_le hstart)
  | commaByte value =>
    exact hstrung.write (Memory.sameOutside_setByte memory _ value) (hwrite rfl) (Nat.le_add_right_of_le hstart)
  | align => exact hstrung.move (Nat.le_trans hstart (le_aligned _)) (.refl _ memory) hspares
  | allot amount =>
    obtain ⟨hlow, _⟩ := hfits
    exact hstrung.move (by omega) (.refl _ memory) hspares

end Strung

theorem Built.strung {finish : Nat} {state : Dictionary × Memory} {created : List Nat}
    (hbuilt : Built finish state created) : Strung finish state.1 state.2 created := by
  induction hbuilt with
  | @new start memory hstart hfin hsize =>
    exact ⟨hsize, hfin, Nat.lt_of_lt_of_le hstart (le_aligned start), Nat.le_refl _, Nat.le_refl _, [], rfl, rfl, nofun⟩
  | done _ hspares happly ih =>
    obtain ⟨hfits, rfl, rfl⟩ := Change.of_apply_eq_ok ih.names_le_size happly
    exact ih.outcome hspares hfits
  | failed _ happly ih =>
    obtain rfl := Change.of_apply_eq_error ih.names_le_size happly
    exact ih

/-! ### Where the chain ends -/

/-- Following the links from the newest word comes to zero after as many steps as words were created and no
sooner, wherever `here` was moved. So the chain lists every created word, newest first, and no search along it,
whatever it looks for, has more headers to visit. -/
theorem follow_latest_of_built {finish : Nat} {state : Dictionary × Memory} {created : List Nat}
    (hbuilt : Built finish state created) :
    follow state.2 created.length state.1.latest = 0 ∧
      (∀ steps < created.length, follow state.2 steps state.1.latest ≠ 0) ∧
      state.1.headers state.2 = .ok created ∧
      ∀ {α : Type} (visit : Nat → Except Fault (Option α)) (more : Nat),
        searchFrom state.2 visit (created.length + more) state.1.latest =
          searchFrom state.2 visit created.length state.1.latest := by
  have hstrung := hbuilt.strung
  have hlength := hstrung.length_le
  have hfinish := hstrung.finish_le
  obtain ⟨entries, rfl, hlinked, hwalk⟩ := hstrung.chain
  rw [List.length_map] at hlength ⊢
  refine ⟨follow_length hwalk hlinked, fun steps hsteps => follow_ne_zero hwalk hlinked hsteps, ?_,
    fun visit more => searchFrom_length visit hwalk hlinked more⟩
  rw [headers, chainFrom_eq hwalk hlinked (by omega)]
  change Except.ok _ = _
  simp

/-- `here` may go back over the newest word, as long as what is laid down there ends before its header. -/
theorem follow_latest_of_built_allotted :
    ∃ state, Built 64 state [28, 4] ∧ state.1.here = 28 ∧ follow state.2 2 state.1.latest = 0 := by
  have hsize : (Memory.ofSize 64).size = 64 := by simp [Memory.ofSize, Memory.size]
  have hempty : Built 64 (Dictionary.new 4 64, Memory.ofSize 64) [] :=
    .new (by decide) (by omega) (by omega)
  have hone := @Built.done _ _ _ _ (.create "a" 0 1) _ hempty (by decide) rfl
  have htwo := @Built.done _ _ _ _ (.allot 4) _ hone (by decide) rfl
  have hthree := @Built.done _ _ _ _ (.create "b" 0 2) _ htwo (by decide) rfl
  have hfour := @Built.done _ _ _ _ (.allot (-24)) _ hthree (by decide) rfl
  have hfive := @Built.done _ _ _ _ (.comma 0) _ hfour (by decide) rfl
  exact ⟨_, hfive, rfl, (follow_latest_of_built hfive).1⟩

/-- The state of a small dictionary after some operations. -/
def Change.applyAll (changes : List Change) : EStateM.Result Fault (Dictionary × Memory) Unit :=
  changes.forM (fun change => discard change.apply) (Dictionary.new 4 64, Memory.ofSize 64)

/-- Where `here` goes back over a header, the chain breaks: a cell laid down there cuts it short, and a word
created there closes it to a ring. Both times two words were created, and no step failed. -/
theorem links_broken_by_allot :
    (∃ after, Change.applyAll [.create "a" 0 1, .create "b" 0 2, .allot (-20), .comma 0] = .ok () after ∧
        after.1.headers after.2 = .ok [24] ∧ follow after.2 1 after.1.latest = 0) ∧
      ∃ after, Change.applyAll [.create "a" 0 1, .allot (-20), .create "b" 0 2] = .ok () after ∧
        after.1.latest = 4 ∧ ∀ steps, follow after.2 steps 4 = 4 := by
  exact ⟨⟨_, rfl, rfl, rfl⟩, _, rfl, rfl, follow_ring rfl⟩

end ThreadedForth.Dictionary
