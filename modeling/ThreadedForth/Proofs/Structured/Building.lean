
import ThreadedForth.Proofs.Machine.Abreast
import ThreadedForth.Proofs.Structured.ReturnWords
import ThreadedForth.Proofs.Structured.StraightLine

/-!
# Laying data down

Straight-line code may take cells and bytes from the data stack and lay them down behind the newest header. What it has
come to is told by the items of the two stacks and by the bytes that it has laid down (`Build`).
-/

namespace ThreadedForth

open WordM Interpreter Layout List

/-! ### What the code means -/

structure Build where
  items : Items
  returns : List Cell
  laid : List UInt8

namespace Build

/-- Lay down the top item as a cell. The data starts at `first`, and the names of the dictionary at `names`. -/
def layCell (first names : Nat) (build : Build) : Except Fault Build :=
  match build.items with
  | value :: rest =>
    if names < first + build.laid.length + 4 then .error .dictionaryOverflow
    else if (first + build.laid.length) % 4 ≠ 0 then
      .error (.misalignedAddress (signedAddress (first + build.laid.length)))
    else .ok { build with items := rest, laid := build.laid ++ Cell.bytes value }
  | [] => .error (.stackUnderflow .data)

/-- Lay down the lowest byte of the top item. -/
def layByte (first names : Nat) (build : Build) : Except Fault Build :=
  match build.items with
  | value :: rest =>
    if names < first + build.laid.length + 1 then .error .dictionaryOverflow
    else .ok { build with items := rest, laid := build.laid ++ [value.toUInt32.toUInt8] }
  | [] => .error (.stackUnderflow .data)

variable {build built : Build} {first names : Nat}

theorem returns_of_layCell (hlay : build.layCell first names = .ok built) : built.returns = build.returns := by
  rw [layCell] at hlay
  split at hlay
  · split at hlay
    · cases hlay
    · split at hlay
      · cases hlay
      · cases hlay
        rfl
  · cases hlay

theorem returns_of_layByte (hlay : build.layByte first names = .ok built) : built.returns = build.returns := by
  rw [layByte] at hlay
  split at hlay
  · split at hlay
    · cases hlay
    · cases hlay
      rfl
  · cases hlay

/-- The point of a thread with these stacks. -/
def thread (build : Build) (ip : Nat) : Thread := ⟨ip, build.items, build.returns⟩

end Build

/-- A word of straight-line code that may lay data down. -/
inductive BuildWord where
  | number (value : Number)
  | data (word : DataWord)
  | transfer (word : Transfer)
  | comma
  | compileComma
  | commaByte

namespace BuildWord

/-- How it is written. -/
def piece : BuildWord → Piece
  | number value => .number value
  | data word => .word word.prim
  | transfer word => .word (.stack word.word)
  | comma => .word (.defining .comma)
  | compileComma => .word (.defining .compileComma)
  | commaByte => .word (.defining .commaByte)

/-- The primitive that is called for it. -/
def prim : BuildWord → Prim
  | number (.single _) => .thread .lit
  | number (.double _) => .thread .twoLit
  | data word => word.prim
  | transfer word => .stack word.word
  | comma => .defining .comma
  | compileComma => .defining .compileComma
  | commaByte => .defining .commaByte

/-- The cells that are compiled for it. -/
def cells : BuildWord → List Cell
  | number (.single value) => [Cell.ofNat (Prim.thread .lit).token, value]
  | number (.double value) => [Cell.ofNat (Prim.thread .twoLit).token, DoubleCell.low value, DoubleCell.high value]
  | word => [Cell.ofNat word.prim.token]

/-- What it does. -/
def action : BuildWord → WordM Unit
  | number value => (Atom.number value).action
  | data word => word.perform
  | transfer word => word.word.perform
  | comma => DefiningWord.perform .comma
  | compileComma => DefiningWord.perform .compileComma
  | commaByte => DefiningWord.perform .commaByte

/-- What it means. -/
def run (first names : Nat) : BuildWord → Build → Except Fault Build
  | number value, build => do return { build with items := ← Items.pushNumber value build.items }
  | data word, build => do return { build with items := ← word.effect build.items }
  | transfer word, build => do
    let both ← word.effect (build.items, build.returns)
    return { build with items := both.1, returns := both.2 }
  | comma, build => build.layCell first names
  | compileComma, build => build.layCell first names
  | commaByte, build => build.layByte first names

end BuildWord

/-- What the words of straight-line code mean, one after the other. -/
def Build.run (first names : Nat) (words : List BuildWord) (build : Build) : Except Fault Build :=
  words.foldlM (fun build word => word.run first names build) build

/-! ### Data in memory -/

theorem Follows.setBytes {base m : Machine} {thread : Thread} {addr : Nat} {bytes : List UInt8}
    (hfol : Follows base thread m) (hrange : addr + bytes.length ≤ dictionaryEnd) :
    Follows { base with memory := base.memory.setBytes addr bytes } thread
      { m with memory := m.memory.setBytes addr bytes } := by
  have horder := order
  have hdata := hfol.bounded.data.limit_eq
  have hdataTop := hfol.bounded.data.limit_le
  have hret := hfol.bounded.returns.limit_eq
  have hreturnsTop := hfol.bounded.returns.limit_le
  have hsame := Memory.sameOutside_setBytes m.memory addr bytes
  refine ⟨hfol.bounded.withMemory hsame.size, ?_, hfol.memory.setBytes _ _, hfol.items.frame hsame ?_,
    hfol.returns.frame hsame ?_⟩
  · rw [hfol.machine_eq]
  · intro other hlow _ hin
    rw [Region.holds_mk] at hin
    omega
  · intro other hlow _ hin
    rw [Region.holds_mk] at hin
    omega

theorem Follows.setCell {base m : Machine} {thread : Thread} {addr : Nat} (hfol : Follows base thread m)
    (value : Cell) (hrange : addr + 4 ≤ dictionaryEnd) :
    Follows { base with memory := base.memory.setCell addr value } thread
      { m with memory := m.memory.setCell addr value } := by
  rw [Memory.setCell_eq_setBytes, Memory.setCell_eq_setBytes]
  exact hfol.setBytes hrange

variable {base m : Machine}

theorem Follows.withDictionary {thread : Thread} {dictionary : Dictionary}
    (hfol : Follows base thread m) (hdict : dictionary.Fits dictionaryRegion) :
    Follows { base with dictionary } thread { m with dictionary } := by
  refine ⟨hfol.bounded.withDictionary hdict, ?_, hfol.memory, hfol.items, hfol.returns⟩
  rw [hfol.machine_eq]

theorem Follows.laid {thread : Thread} {bytes : List UInt8}
    (hfol : Follows base thread m) (hroom : base.dictionary.here + bytes.length ≤ base.dictionary.names) :
    Follows (base.laid bytes) thread (m.laid bytes) := by
  have hdict : m.dictionary = base.dictionary := by rw [hfol.machine_eq]
  have hroom : m.dictionary.here + bytes.length ≤ m.dictionary.names := hdict ▸ hroom
  have hfits := (hfol.bounded.laid hroom).dictionary
  have hwritten := @Follows.setBytes _ _ _ m.dictionary.here bytes hfol
    (Nat.le_trans hroom hfol.bounded.dictionary.names_le)
  rw [Machine.laid, Machine.laid, ← hdict]
  exact hwritten.withDictionary hfits

/-! ### What the words do -/

section Actions

variable {start m : Machine} {build : Build} {ip : Nat}

/-- The action does to the stacks and to the data what a function on them does. -/
def Builds (start : Machine) (action : WordM Unit) (ip : Nat) (build : Build) (result : Except Fault Build) : Prop :=
  ∀ m, Follows (start.laid build.laid) (build.thread ip) m →
    match result with
    | .ok next => ∃ after, action m = .ok () after ∧ Follows (start.laid next.laid) (next.thread ip) after
    | .error fault => ∃ after, action m = .error fault after

variable {action : WordM Unit}

theorem Moves.builds {result : Except Fault Stacks}
    (hmoves : Moves (start.laid build.laid) action (build.thread ip) result) :
    Builds start action ip build (do
      let both ← result
      return { build with items := both.1, returns := both.2 }) := by
  intro m hfol
  have hplays := hmoves m hfol
  cases result with
  | error fault => exact hplays
  | ok both => exact hplays

theorem Denotes.builds {effect : Items → Except Fault Items}
    (hdenotes : Denotes action (StackM.ofEffect effect)) :
    Builds start action ip build (do return { build with items := ← effect build.items }) := by
  intro m hfol
  have hplays := hdenotes _ _ m hfol
  rw [StackM.onThread, StackM.ofEffect, Build.thread] at hplays
  cases heffect : effect build.items with
  | error fault =>
    rw [heffect] at hplays
    exact hplays
  | ok items =>
    rw [heffect] at hplays
    exact hplays

theorem builds_comma (start : Machine) (ip : Nat) (build : Build) :
    Builds start (do comma (← pop)) ip build (build.layCell start.dictionary.here start.dictionary.names) := by
  intro m hfol
  rw [Build.layCell]
  cases hitems : build.items with
  | nil =>
    obtain ⟨after, herror⟩ := Plays.pop_of_empty hitems m hfol
    exact ⟨after, bind_of_error herror⟩
  | cons value rest =>
    obtain ⟨popped, hpop, hpopped⟩ := Plays.pop hitems m hfol
    have hdict : popped.dictionary = (start.laid build.laid).dictionary := by rw [hpopped.machine_eq]
    have hcomma := comma_eq hpopped.bounded value
    rw [hdict] at hcomma
    change _ = if start.dictionary.names < start.dictionary.here + build.laid.length + 4 then _
      else if (start.dictionary.here + build.laid.length) % 4 ≠ 0 then _ else _ at hcomma
    by_cases hfull : start.dictionary.names < start.dictionary.here + build.laid.length + 4
    · simp only [if_pos hfull] at hcomma ⊢
      exact ⟨popped, (bind_of_ok hpop).trans hcomma⟩
    by_cases halign : (start.dictionary.here + build.laid.length) % 4 = 0
    · simp only [if_neg hfull, if_neg (not_not_intro halign)] at hcomma ⊢
      refine ⟨_, (bind_of_ok hpop).trans hcomma, ?_⟩
      rw [Machine.laid_append]
      refine hpopped.laid ?_
      change start.dictionary.here + build.laid.length + 4 ≤ start.dictionary.names
      omega
    · simp only [if_neg hfull, if_pos halign] at hcomma ⊢
      exact ⟨popped, (bind_of_ok hpop).trans hcomma⟩

theorem builds_commaByte (start : Machine) (ip : Nat) (build : Build) :
    Builds start (do commaByte (← pop).toUInt32.toUInt8) ip build
      (build.layByte start.dictionary.here start.dictionary.names) := by
  intro m hfol
  rw [Build.layByte]
  cases hitems : build.items with
  | nil =>
    obtain ⟨after, herror⟩ := Plays.pop_of_empty hitems m hfol
    exact ⟨after, bind_of_error herror⟩
  | cons value rest =>
    obtain ⟨popped, hpop, hpopped⟩ := Plays.pop hitems m hfol
    have hdict : popped.dictionary = (start.laid build.laid).dictionary := by rw [hpopped.machine_eq]
    have hcomma := commaByte_eq hpopped.bounded value.toUInt32.toUInt8
    rw [hdict] at hcomma
    change _ = if start.dictionary.names < start.dictionary.here + build.laid.length + 1 then _ else _ at hcomma
    by_cases hfull : start.dictionary.names < start.dictionary.here + build.laid.length + 1
    · simp only [if_pos hfull] at hcomma ⊢
      exact ⟨popped, (bind_of_ok hpop).trans hcomma⟩
    · simp only [if_neg hfull] at hcomma ⊢
      refine ⟨_, (bind_of_ok hpop).trans hcomma, ?_⟩
      rw [Machine.laid_append]
      refine hpopped.laid ?_
      change start.dictionary.here + build.laid.length + 1 ≤ start.dictionary.names
      omega

theorem BuildWord.builds (word : BuildWord) (start : Machine) (ip : Nat) (build : Build) :
    Builds start word.action ip build (word.run start.dictionary.here start.dictionary.names build) := by
  cases word with
  | number value =>
    have hdenotes := (Atom.number value).denotes
    cases value <;> exact hdenotes.builds
  | data word => exact word.denotes_perform.builds
  | transfer word => exact word.moves.builds
  | comma => exact builds_comma start ip build
  | compileComma => exact builds_comma start ip build
  | commaByte => exact builds_commaByte start ip build

end Actions

/-! ### In a thread -/

/-- The primitives are in the dictionary. -/
structure Machine.Supplied (m : Machine) : Prop where
  primed : Primed m.memory.cellAt
  below : ∀ prim : Prim, prim.token + 4 ≤ m.dictionary.here

namespace Machine.Supplied

variable {m : Machine}

theorem backs (hsupplied : m.Supplied) (prim : Prim) : Backs m prim.token prim := by
  have hins := prim.token_inside
  exact ⟨hins.1, hins.2, by rw [hsupplied.primed, Code.ofCell?_toCell]⟩

theorem laid (hsupplied : m.Supplied) (bytes : List UInt8) : (m.laid bytes).Supplied := by
  refine ⟨fun prim => ?_, fun prim => Nat.le_trans (hsupplied.below prim) (Nat.le_add_right _ _)⟩
  rw [cellAt_laid (hsupplied.below prim)]
  exact hsupplied.primed prim

end Machine.Supplied

section Running

variable {start m : Machine} {build : Build} {ip : Nat}

/-- One round of the inner interpreter, at the cells of a word. -/
theorem BuildWord.round (word : BuildWord) {rest : List Cell} (hsupplied : start.Supplied) (hstart : start.Bounded)
    (hfol : Follows (start.laid build.laid) (build.thread ip) m) (hpos : 0 < ip) (halign : ip % 4 = 0)
    (hrange : ip + 4 * word.cells.length ≤ start.dictionary.here)
    (hheld : HoldsItems start.memory ip (word.cells ++ rest)) (serve : Serve) (fuel : Nat) :
    runThread serve (fuel + 1) m =
      (do (liftM word.action : RunM Unit); runThread serve fuel)
        { m with ip := ip + 4 * word.cells.length } := by
  have hend : start.dictionary.here ≤ dictionaryEnd :=
    Nat.le_trans hstart.dictionary.here_le hstart.dictionary.names_le
  have hkept : HoldsItems (start.laid build.laid).memory ip word.cells := by
    intro place value hplace
    have hlen := (List.getElem?_eq_some_iff.1 hplace).1
    rw [Machine.cellAt_laid (by omega)]
    exact hheld place value (by rw [List.getElem?_append_left hlen]; exact hplace)
  have hbacks := (hsupplied.laid build.laid).backs
  have hsingle (hcells : word.cells = [Cell.ofNat word.prim.token])
      (hperf : word.prim.perform = complete word.action) : runThread serve (fuel + 1) m =
        (do (liftM word.action : RunM Unit); runThread serve fuel)
          { m with ip := ip + 4 * word.cells.length } := by
    rw [hcells] at hkept hrange ⊢
    exact hfol.round hpos halign (Nat.le_trans hrange hend) hkept.head (hbacks word.prim) (by rw [hperf]; rfl) serve fuel
  cases word with
  | number value =>
    have hround := @Atom.round _ m _ (.number value) [] hfol hpos halign
    cases value <;>
      exact hround (Nat.le_trans hrange hend) (by rw [append_nil]; exact hkept) (hbacks _) serve fuel
  | data word => exact hsingle rfl word.perform_prim
  | transfer word => exact hsingle rfl rfl
  | comma => exact hsingle rfl rfl
  | compileComma => exact hsingle rfl rfl
  | commaByte => exact hsingle rfl rfl

/-- Straight-line code does what its words mean, one after the other. -/
theorem Build.runThread {words : List BuildWord} {rest : List Cell} (hsupplied : start.Supplied)
    (hstart : start.Bounded) (hfol : Follows (start.laid build.laid) (build.thread ip) m) (hpos : 0 < ip)
    (halign : ip % 4 = 0) (hrange : ip + 4 * (words.flatMap BuildWord.cells).length ≤ start.dictionary.here)
    (hheld : HoldsItems start.memory ip (words.flatMap BuildWord.cells ++ rest)) :
    match Build.run start.dictionary.here start.dictionary.names words build with
    | .ok built => ∃ after,
        Follows (start.laid built.laid) (built.thread (ip + 4 * (words.flatMap BuildWord.cells).length)) after ∧
        ∀ serve fuel,
          runThread serve (fuel + words.length) m = runThread serve fuel after
    | .error fault => ∃ after, ∀ serve fuel,
        runThread serve (fuel + words.length) m = .error (.fault fault) after := by
  induction words generalizing build ip m with
  | nil => exact ⟨m, hfol, fun _ _ => rfl⟩
  | cons word words ih =>
    rw [flatMap_cons, append_assoc] at hheld
    rw [flatMap_cons, length_append] at hrange
    have hround := word.round hsupplied hstart hfol hpos halign (by omega) hheld
    have hmoved := hfol.withIp (ip + 4 * word.cells.length)
    have hbuilds := word.builds start (ip + 4 * word.cells.length) build _ hmoved
    have hrun : Build.run start.dictionary.here start.dictionary.names (word :: words) build =
        (word.run start.dictionary.here start.dictionary.names build).bind
          (Build.run start.dictionary.here start.dictionary.names words) := rfl
    rw [hrun]
    cases hword : word.run start.dictionary.here start.dictionary.names build with
    | error fault =>
      rw [hword] at hbuilds
      obtain ⟨after, herror⟩ := hbuilds
      exact ⟨after, fun serve fuel => (hround serve _).trans (bind_of_error (run_of_error herror))⟩
    | ok next =>
      rw [hword] at hbuilds
      obtain ⟨middle, hok, hmid⟩ := hbuilds
      have hfst (serve : Serve) (fuel : Nat) : runThread serve (fuel + (word :: words).length) m =
          runThread serve (fuel + words.length) middle :=
        (hround serve _).trans (bind_of_ok (run_of_ok hok))
      have hrest := ih hmid (by omega) (by omega) (by omega) hheld.of_append
      simp only [Except.bind, hfst, flatMap_cons, length_append, Nat.mul_add, ← Nat.add_assoc]
      exact hrest

end Running

end ThreadedForth
