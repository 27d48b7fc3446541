
import ThreadedForth.Proofs.Structured.Definer

/-!
# Children

A defining word that is interpreted makes a word, its child. However many children it has, and whatever else was appended
to the dictionary in the meantime, each of them pushes the address of its own body and does what stands behind `DOES>`,
whether it is interpreted, called or executed by its token.
-/

namespace ThreadedForth

open WordM Dictionary Layout Utf8 Header Region
open Interpreter

/-! ### Creating a header -/

/-- A header with this name was laid down. -/
structure Created (flags : Cell) (code : Code) (name : String) (before after : Machine) : Prop where
  room : HeaderRoom name before.dictionary
  bounded : after.Bounded
  machine_eq : after = { before with
    dictionary := headed before.dictionary name, memory := after.memory, reports := after.reports }
  entry : ∃ link, HoldsEntry after.memory (headed before.dictionary name).names
    ⟨aligned before.dictionary.here, link, name, flags, 0, code.toCell⟩
  memory : Memory.SameOutside
    (fun address => (Region.mk toIn (toIn + 4)).Holds address ∨
      (Region.mk before.dictionary.here before.dictionary.names).Holds address) before.memory after.memory

variable {after before base m : Machine} {code : Code} {flags : Cell} {caller : Nat} {items : Items}
  {returns : List Cell} {definer : Definer} {words : List Compiled}

theorem created_of_define {token : Nat} (hb : before.Bounded)
    (hdefine : DefiningWord.define flags code before = .ok token after) :
    ∃ name read, requireName before = .ok name read ∧ Created flags code name before after := by
  obtain ⟨name, toIn, reports, hname, henter⟩ := enter_of_define_eq_ok hb hdefine
  have hafter : after.Bounded := Keeps.of_ok hb hdefine
  have hset := Memory.sameOutside_setCell before.memory Layout.toIn toIn
  have hnames : before.dictionary.names ≤ dictionaryEnd := hb.dictionary.names_le
  have horder := order
  have hsize : (before.memory.setCell Layout.toIn toIn).size = memorySize := hset.size.trans hb.size_eq
  rcases enter_cases before.dictionary (encode name) flags code.toCell (by omega :
      before.dictionary.names ≤ (before.memory.setCell Layout.toIn toIn).size) with
    ⟨fault, herror⟩ | ⟨hlen, hspace, hmeet, hok⟩
  · rw [onDictionary, herror] at henter
    cases henter
  rw [onDictionary, hok] at henter
  cases henter
  have hheld := @holdsEntry_entered (before.memory.setCell Layout.toIn toIn) _ _ before.dictionary.latest name flags
    code.toCell (by omega) (aligned_mod _) (Nat.le_of_lt hmeet) (by omega) hlen
  have hent := sameOutside_entered (before.memory.setCell Layout.toIn toIn) before.dictionary.latest
    (encode name) flags code.toCell (le_aligned before.dictionary.here) hspace hmeet
  exact ⟨name, _, hname, ⟨hlen, by omega⟩, hafter, rfl, ⟨_, hheld⟩,
    (hset.mono fun _ => .inl).trans (hent.mono fun _ => .inr)⟩

namespace Created

variable {flags : Cell} {code : Code} {name : String} {before after base : Machine} {thread : Thread}

variable (hcreated : Created flags code name before after)

include hcreated

theorem dictionary_eq : after.dictionary = headed before.dictionary name := by
  rw [hcreated.machine_eq]

theorem retains : before.Retains after := by
  have horder := order
  refine ⟨hcreated.bounded, ?_, ?_, hcreated.memory.mono fun addr hin => ?_⟩
  · rw [hcreated.dictionary_eq]
    exact Nat.le_trans (le_aligned _) (Nat.le_add_right _ _)
  · rw [hcreated.dictionary_eq]
    exact Nat.sub_le _ _
  · simp only [Region.holds_mk] at hin
    rcases hin with hin | hin
    · exact .inl (by omega)
    · exact .inr (.inl hin)

theorem follows (hfol : Follows base thread before) : Follows after thread after := by
  have hnames := hfol.bounded.dictionary.names_le
  have hdata := hfol.bounded.data.limit_eq
  have hdataTop := hfol.bounded.data.limit_le
  have hret := hfol.bounded.returns.limit_eq
  have hreturnsTop := hfol.bounded.returns.limit_le
  have horder := order
  have hitems : after.data.Carries after.memory thread.items := by
    rw [show after.data = before.data by rw [hcreated.machine_eq]]
    refine hfol.items.frame hcreated.memory fun addr hlow _ hin => ?_
    simp only [Region.holds_mk] at hin
    omega
  have hvalues : after.returns.Carries after.memory thread.returns := by
    rw [show after.returns = before.returns by rw [hcreated.machine_eq]]
    refine hfol.returns.frame hcreated.memory fun addr hlow _ hin => ?_
    simp only [Region.holds_mk] at hin
    omega
  have hip : after.ip = thread.ip := by
    rw [hcreated.machine_eq]
    exact hfol.ip_eq
  exact ⟨hcreated.bounded, by rw [← hip], .refl _ _, hitems, hvalues⟩

end Created

/-! ### Giving behaviour to it -/

/-- The machine once its newest word was given new behaviour. -/
def Machine.directed (m : Machine) (behaviour : Nat) : Machine :=
  { m with
    memory := (m.memory.setCell (Header.token m.dictionary.latest) Code.does.toCell).setCell
      (doesField m.dictionary.latest) (Cell.ofNat behaviour) }

/-- `(does>)` directs the newest word to the code behind it, and returns. -/
theorem Follows.setDoes {ip : Nat}
    (hfol : Follows base ⟨ip, items, Cell.ofNat caller :: returns⟩ m) (hcaller : caller ≤ dictionaryEnd)
    (halign : base.dictionary.latest % 4 = 0) (hrange : base.dictionary.latest + size ≤ dictionaryEnd) :
    ∃ last, (Prim.thread .setDoes).perform m = .ok none last ∧
      Follows (base.directed ip) ⟨caller, items, returns⟩ last := by
  have horder := Layout.order
  have hsize := hfol.bounded.size_eq
  have hlatest : m.dictionary.latest = base.dictionary.latest := by rw [hfol.machine_eq]
  rw [Header.size] at hrange
  have hset : Dictionary.setDoes base.dictionary.latest Code.does.toCell ip m.memory = .ok ()
      ((m.memory.setCell (Header.token base.dictionary.latest) Code.does.toCell).setCell
        (doesField base.dictionary.latest) (Cell.ofNat ip)) := by
    refine (bind_of_ok (Memory.writeCell_eq_ok _ (by rw [Header.token]; omega) (by rw [Header.token]; omega))).trans ?_
    exact Memory.writeCell_eq_ok _ (by rw [Memory.size_setCell, doesField]; omega) (by rw [doesField]; omega)
  have hwritten : Follows (base.directed ip) ⟨ip, items, Cell.ofNat caller :: returns⟩ { m with
      memory := (m.memory.setCell (Header.token base.dictionary.latest) Code.does.toCell).setCell
        (doesField base.dictionary.latest) (Cell.ofNat ip) } := by
    have hcode := @Follows.setCell _ _ _ (Header.token base.dictionary.latest) hfol Code.does.toCell
      (by rw [Header.token]; omega)
    exact @Follows.setCell _ _ _ (doesField base.dictionary.latest) hcode (Cell.ofNat ip)
      (by rw [doesField]; omega)
  have hreturn := ThreadWord.plays_returnToCaller _ hwritten
  rw [Op.run_exit hcaller] at hreturn
  obtain ⟨last, hlast, hended⟩ := hreturn
  refine ⟨last, ?_, hended⟩
  have hip : m.ip = ip := hfol.ip_eq
  refine (bind_of_ok (show ask (fun m => .ok m.ip) m = .ok ip m by rw [ask, hip])).trans ?_
  refine (bind_of_ok (show ask (fun m => .ok m.dictionary.latest) m =
    .ok base.dictionary.latest m by rw [ask, hlatest])).trans ?_
  have hmem {memory : Memory}
      (hset : Dictionary.setDoes base.dictionary.latest Code.does.toCell ip m.memory = .ok () memory) :
      onMemory (Dictionary.setDoes base.dictionary.latest Code.does.toCell ip) m = .ok () { m with memory } := by
    rw [onMemory, hset]
  exact (bind_of_ok (hmem hset)).trans (bind_of_ok hlast)

theorem Follows.runThread_setDoes {ip : Nat}
    (hfol : Follows base ⟨ip, items, Cell.ofNat caller :: returns⟩ m) (hcaller : caller ≤ dictionaryEnd)
    (halign : base.dictionary.latest % 4 = 0) (hrange : base.dictionary.latest + Header.size ≤ dictionaryEnd)
    (hpos : 0 < ip) (hip : ip % 4 = 0) (hend : ip + 4 ≤ dictionaryEnd)
    (hcell : base.memory.cellAt ip = Cell.ofNat (Prim.thread .setDoes).token)
    (hbacks : Backs base (Prim.thread .setDoes).token (.thread .setDoes)) :
    ∃ last, Follows (base.directed (ip + 4)) ⟨caller, items, returns⟩ last ∧
      ∀ serve fuel, runThread serve (fuel + 1) m = runThread serve fuel last := by
  obtain ⟨last, hset, hlast⟩ := (hfol.withIp (ip + 4)).setDoes hcaller halign hrange
  refine ⟨last, hlast, fun serve fuel => ?_⟩
  exact hfol.round hpos hip hend hcell hbacks (hset.trans (show _ = complete (pure ()) last from rfl)) serve fuel

/-- A header that was laid down is directed elsewhere, once there is data behind it. -/
theorem Created.directed {name : String} {made : Machine} {laid : List UInt8}
    {behaviour : Nat} (hcreated : Created flags code name before made) (hb : before.Bounded)
    (hroom : made.dictionary.here + laid.length ≤ made.dictionary.names) (hbeh : behaviour < 2 ^ 31) :
    (∃ link, HoldsEntry ((made.laid laid).directed behaviour).memory (headed before.dictionary name).names
      ⟨aligned before.dictionary.here, link, name, flags, behaviour, Code.does.toCell⟩) ∧
    ((made.laid laid).directed behaviour).memory.bytesAt made.dictionary.here laid.length = laid ∧
    Memory.SameOutside (Region.mk before.dictionary.here before.dictionary.names).Holds made.memory
      ((made.laid laid).directed behaviour).memory := by
  have hdict := hcreated.dictionary_eq
  have hgrow := le_aligned before.dictionary.here
  have hhere : made.dictionary.here = aligned before.dictionary.here + 20 := by rw [hdict]; rfl
  have hnames : made.dictionary.names = before.dictionary.names - ((encode name).length + 1) := by
    rw [hdict]
    rfl
  have hlatest : made.dictionary.latest = aligned before.dictionary.here := by rw [hdict]; rfl
  have hlimit : before.dictionary.names ≤ dictionaryEnd := hb.dictionary.names_le
  have horder := order
  have hsize := hcreated.bounded.size_eq
  have hlaid := made.sameOutside_laid laid
  have hset := sameOutside_setDoes (aligned before.dictionary.here) Code.does.toCell (Cell.ofNat behaviour)
    (made.laid laid).memory
  have hmem : ((made.laid laid).directed behaviour).memory =
      ((made.laid laid).memory.setCell (Header.token (aligned before.dictionary.here)) Code.does.toCell).setCell
        (doesField (aligned before.dictionary.here)) (Cell.ofNat behaviour) := by
    rw [← hlatest]
    rfl
  have hhdr : size = 20 ∧ doesField (aligned before.dictionary.here) =
    aligned before.dictionary.here + 12 := ⟨rfl, rfl⟩
  obtain ⟨link, hheld⟩ := hcreated.entry
  rw [hmem]
  have hnameAddress : (headed before.dictionary name).names = before.dictionary.names - ((encode name).length + 1) :=
    rfl
  refine ⟨⟨link, ?_⟩, ?_, (hlaid.mono fun addr hin => ?_).trans (hset.mono fun addr hin => ?_)⟩
  · have hframed := hheld.frame hlaid (fun addr _ hhigh hin => ?_) (fun addr hlow _ hin => ?_)
      (by simp only; omega)
    · have hreread := hframed.reread (hset.mono fun addr hin => ?_) (by simp only; omega)
        (by rw [hlaid.size]; simp only; omega)
      · rw [rereadTail_setDoes hframed.flags (by rw [hlaid.size]; simp only; omega), keptAddress_eq hbeh] at hreread
        exact hreread
      · rw [holds_mk] at hin
        simp only [holds_mk, flagsField]
        omega
    · simp only at hhigh
      rw [holds_mk] at hin
      omega
    · rw [holds_mk] at hin
      omega
  · rw [hset.bytesAt (by rw [hlaid.size]; omega) fun other hlow _ hin => by rw [holds_mk] at hin; omega]
    exact Memory.bytesAt_setBytes _ _ _ (by omega)
  · rw [holds_mk] at hin ⊢
    omega
  · rw [holds_mk] at hin ⊢
    omega

/-! ### Making a child -/

/-- The code leaves the return stack as it finds it. -/
def Balanced (words : List BuildWord) : Prop :=
  ∀ first names build built, Build.run first names words build = .ok built → built.returns = build.returns

theorem BuildWord.returns_of_run {word : BuildWord} {first names : Nat} {build built : Build}
    (hplain : ∀ transfer, word ≠ .transfer transfer) (hrun : word.run first names build = .ok built) :
    built.returns = build.returns := by
  cases word with
  | transfer transfer => exact (hplain transfer rfl).elim
  | number value =>
    rw [BuildWord.run] at hrun
    cases hitems : Items.pushNumber value build.items with
    | error fault => rw [hitems] at hrun; cases hrun
    | ok items => rw [hitems] at hrun; cases hrun; rfl
  | data word =>
    rw [BuildWord.run] at hrun
    cases hitems : word.effect build.items with
    | error fault => rw [hitems] at hrun; cases hrun
    | ok items => rw [hitems] at hrun; cases hrun; rfl
  | comma => exact Build.returns_of_layCell hrun
  | compileComma => exact Build.returns_of_layCell hrun
  | commaByte => exact Build.returns_of_layByte hrun

theorem balanced_of_plain {words : List BuildWord} (hplain : ∀ transfer, .transfer transfer ∉ words) : Balanced words := by
  intro first names build built hrun
  induction words generalizing build with
  | nil =>
    cases hrun
    rfl
  | cons word words ih =>
    rw [Build.run, List.foldlM_cons] at hrun
    cases hword : word.run first names build with
    | error fault =>
      rw [hword] at hrun
      cases hrun
    | ok next =>
      rw [hword] at hrun
      rw [ih (fun transfer hin => hplain transfer (List.mem_cons_of_mem _ hin)) next hrun]
      refine BuildWord.returns_of_run (fun transfer heq => hplain transfer ?_) hword
      rw [heq]
      exact List.mem_cons_self

namespace Definer

variable {definer : Definer} {words : List Compiled} {before after entered ended : Machine} {items : Items}
  {returns : List Cell}

/-- The defining word is interpreted, and that ends well. -/
def Makes (definer : Definer) (before after : Machine) : Prop :=
  ¬ before.Compiling ∧ ∃ fuel word header, before.findHeader? word = .ok (some header) ∧ header.xt = definer.token ∧
    interpretToken (serve fuel) word before = .ok () after

section

variable (herected : definer.Erected words before)

include herected

theorem Erected.sound (hb : before.Bounded) : (Op.call definer.token).Sound before.memory.cellAt := by
  have hbelow := herected.below
  have hhere := hb.dictionary.here_le
  have hnames : before.dictionary.names ≤ dictionaryEnd := hb.dictionary.names_le
  rw [behaviour, Header.body] at hbelow
  exact ⟨herected.isAligned, by omega, herected.colon⟩

theorem Erected.behaviour_le (hb : before.Bounded) : definer.behaviour ≤ dictionaryEnd := by
  have hbelow := herected.below
  have hhere := hb.dictionary.here_le
  have hnames : before.dictionary.names ≤ dictionaryEnd := hb.dictionary.names_le
  omega

theorem Erected.enters
    (hrefl : Follows before ⟨before.ip, items, returns⟩ before) (hmakes : definer.Makes before after) :
    ∃ entered ended serve fuel, Follows before ⟨Header.body definer.token, items, Cell.ofNat 0 :: returns⟩ entered ∧
      runThread serve fuel entered = .ok () ended ∧ after = { ended with ip := before.ip } := by
  obtain ⟨hresting, fuel, word, header, hfound, hxt, hrun⟩ := hmakes
  have hb := hrefl.bounded
  cases honly : header.isCompileOnly with
  | true => cases hrun.symm.trans (interpretToken_of_compileOnly hb hresting hfound honly)
  | false =>
    rw [interpretToken_of_interpreted hb hresting hfound honly, hxt] at hrun
    cases fuel with
    | zero => cases hrun
    | succ fuel =>
      rcases hrefl.execute_eq (herected.sound hb) with ⟨_, last, hfull⟩ | ⟨entered, hent, hserve⟩
      · cases hrun.symm.trans (hfull fuel)
      · rw [hserve] at hrun
        cases hthread : runThread (Interpreter.serve fuel) fuel entered with
        | error halt ended =>
          rw [hthread] at hrun
          cases hrun
        | ok answer ended =>
          rw [hthread] at hrun
          cases hrun
          exact ⟨entered, ended, _, fuel, hent, hthread, rfl⟩

end

theorem Erected.create_eq (herected : definer.Erected words before) (hb : before.Bounded)
    (hent : Follows before ⟨Header.body definer.token, items, Cell.ofNat 0 :: returns⟩ entered)
    (serve : Serve) (fuel : Nat) :
    runThread serve (fuel + 1) entered =
      (do (liftM (discard (DefiningWord.define 0 .pushBody)) : RunM Unit); runThread serve fuel)
        { entered with ip := Header.body definer.token + 4 } := by
  have hbelow := herected.below
  have hhere := hb.dictionary.here_le
  have hnames : before.dictionary.names ≤ dictionaryEnd := hb.dictionary.names_le
  have haligned := herected.isAligned
  have hlen := definer.length_values
  have hbeh : definer.behaviour = definer.token + 4 + 4 * definer.values.length := rfl
  exact hent.round (show 0 < definer.token + 4 by omega) (show (definer.token + 4) % 4 = 0 by omega)
    (show definer.token + 4 + 4 ≤ dictionaryEnd by omega) herected.held.head (herected.supplied.backs _)
    (show (Prim.defining .create).perform { entered with ip := Header.body definer.token + 4 } =
      complete (discard (DefiningWord.define 0 .pushBody)) { entered with ip := Header.body definer.token + 4 } from rfl)
    serve fuel

variable {fuel : Nat} {serve : Serve} {made : Machine}

theorem Erected.creates (herected : definer.Erected words before) (hb : before.Bounded)
    (hent : Follows before ⟨Header.body definer.token, items, Cell.ofNat 0 :: returns⟩ entered)
    (hrun : runThread serve fuel entered = .ok () ended) :
    ∃ name read made, requireName { entered with ip := Header.body definer.token + 4 } = .ok name read ∧
      Created 0 .pushBody name { entered with ip := Header.body definer.token + 4 } made ∧
      runThread serve fuel made = .ok () ended := by
  have hmoved := hent.withIp (Header.body definer.token + 4)
  have := extends_runThread serve serve (Nat.le_add_right fuel 1)
  have hmore : runThread serve (fuel + 1) entered = .ok () ended := Extends.of_ok hrun
  obtain ⟨_, made, hcreate, hrest⟩ := of_bind_eq_ok ((herected.create_eq hb hent serve fuel).symm.trans hmore)
  obtain ⟨token, _, hdefine, hdone⟩ := of_bind_eq_ok (of_run_eq_ok hcreate)
  cases hdone
  obtain ⟨name, read, hname, hcreated⟩ := created_of_define hmoved.bounded hdefine
  exact ⟨name, read, made, hname, hcreated, hrest⟩

/-- If a name follows and there is room for its header, the word comes to what the rest of the first part comes to. -/
theorem Erected.opens {entries : List Header} {bytes : List UInt8} {name word : String} {rest : List (List UInt8)}
    {header : Header} (herected : definer.Erected words before) (hidle : Idle entries before)
    (hrefl : Follows before ⟨before.ip, items, returns⟩ before) (hspace : returns.length < returnCells)
    (hlook : lookup entries word = some header) (hxt : header.xt = definer.token) (honly : header.isCompileOnly = false)
    (hrd : Reading bytes before) (hwords : Text.words bytes = encode name :: rest)
    (hroom : HeaderRoom name before.dictionary) :
    ∃ made, before.Retains made ∧ made.dictionary = headed before.dictionary name ∧
      Follows made ⟨Header.body definer.token + 4, items, Cell.ofNat 0 :: returns⟩ made ∧
      ∀ count last, (∀ serve fuel, runThread serve (fuel + count) made = .ok () last) →
        definer.Makes before { last with ip := before.ip } := by
  have hb := hrefl.bounded
  have hfound : before.findHeader? word = .ok (some header) := by rw [hidle.lexicon.findHeader?_eq, hlook]
  rcases hrefl.execute_eq (herected.sound hb) with ⟨hfull, _⟩ | ⟨entered, hent, hserve⟩
  · omega
  have hmoved := hent.withIp (Header.body definer.token + 4)
  have hdict : entered.dictionary = before.dictionary := by rw [hent.machine_eq]
  have hroom : HeaderRoom name entered.dictionary := hdict ▸ hroom
  obtain ⟨made, hdefine, _⟩ := define_eq 0 .pushBody hmoved.bounded (hmoved.idle hidle).lexicon
    (hmoved.reading hb hrd) hwords hroom
  obtain ⟨_, _, hname, hcreated⟩ := created_of_define hmoved.bounded hdefine
  obtain ⟨_, hread, _⟩ := requireName_of_reading (hmoved.reading hb hrd) hmoved.bounded hwords
  cases hname.symm.trans hread
  refine ⟨made, (Machine.Retains.of_calm hmoved.calm).trans hcreated.retains, hdict ▸ hcreated.dictionary_eq,
    hcreated.follows hmoved, fun count last hlast => ⟨hidle.resting, count + 1 + 1, word, header, hfound, hxt, ?_⟩⟩
  have hthread : runThread (Interpreter.serve (count + 1)) (count + 1) entered = .ok () last := by
    refine (herected.create_eq hb hent _ count).trans ?_
    refine (bind_of_ok (run_of_ok (discard_of_ok hdefine))).trans ?_
    have hzero := hlast (Interpreter.serve (count + 1)) 0
    rwa [Nat.zero_add] at hzero
  rw [interpretToken_of_interpreted hb hidle.resting hfound honly, hxt, hserve, hthread]

/-- Then data is laid down behind it, and the new word is directed to the second part. The thread goes on at the address
that is then on top of the return stack. -/
theorem Erected.build_eq {values : List Cell} (herected : definer.Erected words made)
    (hmade : Follows made ⟨Header.body definer.token + 4, items, values⟩ made)
    (halign : made.dictionary.latest % 4 = 0) (hrange : made.dictionary.latest + size ≤ made.dictionary.here) :
    match Build.run made.dictionary.here made.dictionary.names definer.build ⟨items, values, []⟩ with
    | .error fault => ∃ after, ∀ serve fuel,
        runThread serve (fuel + definer.build.length) made = .error (.fault fault) after
    | .ok built => ∀ caller rest, built.returns = Cell.ofNat caller :: rest → caller ≤ dictionaryEnd →
        ∃ last, Follows ((made.laid built.laid).directed definer.behaviour) ⟨caller, built.items, rest⟩ last ∧
          ∀ serve fuel, runThread serve (fuel + 1 + definer.build.length) made =
            runThread serve fuel last := by
  have hbelow := herected.below
  have hhere := hmade.bounded.dictionary.here_le
  have hnames : made.dictionary.names ≤ dictionaryEnd := hmade.bounded.dictionary.names_le
  have haligned := herected.isAligned
  have hlen := definer.length_values
  have hbeh : definer.behaviour = definer.token + 4 + 4 * definer.values.length := rfl
  have hbody : Header.body definer.token = definer.token + 4 := rfl
  have hheld := herected.held.tail
  have hbuild := @Build.runThread made made ⟨items, values, []⟩ (Header.body definer.token + 4)
    definer.build _ herected.supplied hmade.bounded hmade (by omega) (by omega) (by omega) hheld
  cases hbuilt : Build.run made.dictionary.here made.dictionary.names definer.build ⟨items, values, []⟩ with
  | error fault =>
    rw [hbuilt] at hbuild
    exact hbuild
  | ok built =>
    rw [hbuilt] at hbuild
    obtain ⟨middle, hmid, hthread⟩ := hbuild
    intro caller rest hret hcaller
    rw [Build.thread, hret] at hmid
    have hcell := hheld.of_append.head
    rw [← Machine.cellAt_laid (show _ + 4 ≤ made.dictionary.here by omega)] at hcell
    have hbeh : Header.body definer.token + 4 + 4 * (definer.build.flatMap BuildWord.cells).length + 4 =
        definer.behaviour := by omega
    obtain ⟨last, hlast, hround⟩ := hmid.runThread_setDoes hcaller halign
      (Nat.le_trans hrange (Nat.le_trans hhere hnames)) (by omega) (by omega) (by omega) hcell
      ((herected.supplied.laid built.laid).backs (.thread .setDoes))
    rw [hbeh] at hlast
    exact ⟨last, hlast, fun serve fuel => (hthread serve (fuel + 1)).trans (hround serve fuel)⟩

theorem Erected.builds (herected : definer.Erected words made) (hbal : Balanced definer.build)
    (hmade : Follows made ⟨Header.body definer.token + 4, items, Cell.ofNat 0 :: returns⟩ made)
    (halign : made.dictionary.latest % 4 = 0) (hrange : made.dictionary.latest + size ≤ made.dictionary.here)
    (hrun : runThread serve fuel made = .ok () ended) :
    ∃ built, Build.run made.dictionary.here made.dictionary.names definer.build ⟨items, Cell.ofNat 0 :: returns, []⟩ =
        .ok built ∧
      Follows ((made.laid built.laid).directed definer.behaviour) ⟨0, built.items, returns⟩ ended := by
  have hbuild := herected.build_eq hmade halign hrange
  have := extends_runThread serve serve (Nat.le_add_right fuel (1 + 1 + definer.build.length))
  have hmore : runThread serve (fuel + 1 + 1 + definer.build.length) made = .ok () ended := by
    rw [Nat.add_assoc fuel, Nat.add_assoc fuel]
    exact Extends.of_ok hrun
  cases hbuilt : Build.run made.dictionary.here made.dictionary.names definer.build
      ⟨items, Cell.ofNat 0 :: returns, []⟩ with
  | error fault =>
    rw [hbuilt] at hbuild
    obtain ⟨after, herror⟩ := hbuild
    cases hmore.symm.trans (herror serve _)
  | ok built =>
    rw [hbuilt] at hbuild
    obtain ⟨last, hlast, hthread⟩ := hbuild 0 returns (hbal _ _ _ _ hbuilt) (Nat.zero_le _)
    cases hmore.symm.trans ((hthread serve (fuel + 1)).trans (runThread_of_idle hlast.ip_eq))
    exact ⟨built, rfl, hlast⟩

end Definer

/-! ### What a child is -/

/-- A word that was made by a defining word, with the bytes behind its header. -/
structure Child where
  token : Nat
  laid : List UInt8

/-- The word that has come to be between two machines. -/
def Child.made (before after : Machine) : Child :=
  let token := Header.token (aligned before.dictionary.here)
  ⟨token, after.memory.bytesAt (Header.body token) (after.dictionary.here - Header.body token)⟩

/-- The child is in the dictionary, and it is directed to the second part of the defining word. -/
structure Definer.Kin (definer : Definer) (m : Machine) (child : Child) : Prop where
  entry : ∃ nameAddress link name, m.dictionary.names ≤ nameAddress ∧
    nameAddress + ((encode name).length + 1) ≤ dictionaryEnd ∧
    HoldsEntry m.memory nameAddress
      ⟨ofToken child.token, link, name, 0, definer.behaviour, Code.does.toCell⟩
  low : dictionaryStart + 16 ≤ child.token
  below : Header.body child.token + child.laid.length ≤ m.dictionary.here
  laid : m.memory.bytesAt (Header.body child.token) child.laid.length = child.laid

namespace Definer.Kin

variable {definer : Definer} {child : Child} {before after m : Machine}

theorem retains (hkin : definer.Kin before child) (hb : before.Bounded) (hretn : before.Retains after) :
    definer.Kin after child := by
  have hlow := hkin.low
  have hbelow := hkin.below
  have hhere := hb.dictionary.here_le
  have hnames : before.dictionary.names ≤ dictionaryEnd := hb.dictionary.names_le
  have horder := order
  have hsize := hb.size_eq
  rw [Header.body] at hbelow
  have hout (addr : Nat) (hfst : child.token - 16 ≤ addr)
      (hlast : addr < child.token + 4 + child.laid.length) : ¬ before.Vacant addr := by
    rintro (hvac | ⟨hvac, _⟩ | hvac) <;> omega
  obtain ⟨nameAddress, link, name, hname, hlast, hheld⟩ := hkin.entry
  refine ⟨⟨nameAddress, link, name, Nat.le_trans hretn.names_le hname, hlast, hheld.frame hretn.memory ?_ ?_ ?_⟩,
    hlow, Nat.le_trans hkin.below hretn.here_le, ?_⟩
  · intro addr hfst hsnd
    simp only [ofToken, size] at hfst hsnd
    exact hout addr (by omega) (by omega)
  · rintro addr hfst hsnd (hvac | ⟨_, hvac⟩ | hvac) <;> simp only at hsnd <;> omega
  · simp only
    omega
  · rw [hretn.memory.bytesAt (by rw [Header.body]; omega) fun other hfst hsnd => ?_]
    · exact hkin.laid
    · rw [Header.body] at hfst hsnd
      exact hout other (by omega) (by omega)

theorem directed (hkin : definer.Kin m child) (hb : m.Bounded) (hbeh : definer.behaviour ≤ dictionaryEnd) :
    Directed m.memory.cellAt child.token definer.behaviour := by
  have hlow := hkin.low
  have hbelow := hkin.below
  have hhere := hb.dictionary.here_le
  have horder := order
  obtain ⟨nameAddress, link, name, _, _, hheld⟩ := hkin.entry
  have halign := hheld.isAligned
  have hdoes := hheld.does
  have hcode := hheld.code
  simp only [ofToken] at halign hdoes hcode
  rw [Header.body] at hbelow
  rw [Header.token, Nat.sub_add_cancel (by omega)] at hcode
  refine ⟨by omega, by omega, by omega, hcode, ?_, hbeh⟩
  rw [← hdoes, Cell.ofNat_toAddress (by omega), ofToken]

theorem header_eq (hkin : definer.Kin m child) (hb : m.Bounded) :
    ∃ link name, Dictionary.header m.memory (ofToken child.token) =
      .ok ⟨ofToken child.token, link, name, 0, definer.behaviour, Code.does.toCell⟩ := by
  have hbelow := hkin.below
  have hhere := hb.dictionary.here_le
  have horder := order
  have hsize := hb.size_eq
  obtain ⟨nameAddress, link, name, _, hlast, hheld⟩ := hkin.entry
  rw [Header.body] at hbelow
  exact ⟨link, name, hheld.header_eq (by simp only [ofToken, size]; omega) (by simp only; omega)⟩

end Definer.Kin

/-! ### What making one does -/

/-- The course that the run of a defining word takes. -/
structure Definer.Course (definer : Definer) (before after : Machine) (items : Items) (returns : List Cell) (name : String)
    (entered made : Machine) (built : Build) : Prop where
  enters : Follows before ⟨Header.body definer.token, items, Cell.ofNat 0 :: returns⟩ entered
  reads : ∃ read, requireName { entered with ip := Header.body definer.token + 4 } = .ok name read
  creates : Created 0 .pushBody name { entered with ip := Header.body definer.token + 4 } made
  builds : Build.run made.dictionary.here made.dictionary.names definer.build ⟨items, Cell.ofNat 0 :: returns, []⟩ = .ok built
  ends : Follows ((made.laid built.laid).directed definer.behaviour) ⟨before.ip, built.items, returns⟩ after
  behaviour_le : definer.behaviour ≤ dictionaryEnd

theorem Definer.Erected.course (herected : definer.Erected words before) (hbal : Balanced definer.build)
    (hrefl : Follows before ⟨before.ip, items, returns⟩ before) (hmakes : definer.Makes before after) :
    ∃ name entered made built, definer.Course before after items returns name entered made built := by
  obtain ⟨entered, ended, serve, fuel, hent, hthread, rfl⟩ := herected.enters hrefl hmakes
  obtain ⟨name, read, made, hname, hcreated, hrest⟩ := herected.creates hrefl.bounded hent hthread
  have hmoved := hent.withIp (Header.body definer.token + 4)
  have hretn := (Machine.Retains.of_calm hmoved.calm).trans hcreated.retains
  have hdict := hcreated.dictionary_eq
  obtain ⟨built, hbuilt, hended⟩ := (herected.retains hrefl.bounded hretn).builds hbal (hcreated.follows hmoved)
    (by rw [hdict]; exact aligned_mod _) (by rw [hdict]; exact Nat.le_refl _) hrest
  exact ⟨name, entered, made, built, hent, ⟨read, hname⟩, hcreated, hbuilt, hended.withIp before.ip,
    herected.behaviour_le hrefl.bounded⟩

namespace Definer.Course

variable {definer : Definer} {before after entered made : Machine} {items : Items} {returns : List Cell} {name : String}
  {built : Build}

variable (hcourse : definer.Course before after items returns name entered made built)

include hcourse

theorem dictionary_eq :
    after.dictionary = { headed before.dictionary name with here := aligned before.dictionary.here + 20 + built.laid.length } := by
  have hent : entered.dictionary = before.dictionary := by rw [hcourse.enters.machine_eq]
  have hmade := hcourse.creates.dictionary_eq
  rw [show after.dictionary = (made.laid built.laid).dictionary by rw [hcourse.ends.machine_eq]; rfl, Machine.laid]
  simp only [hmade, hent]
  rfl

theorem room : made.dictionary.here + built.laid.length ≤ made.dictionary.names := by
  have hfits := hcourse.ends.bounded.dictionary.here_le
  rw [show after.dictionary = (made.laid built.laid).dictionary by rw [hcourse.ends.machine_eq]; rfl] at hfits
  exact hfits

theorem made_here : made.dictionary.here = Header.body (Header.token (aligned before.dictionary.here)) := by
  rw [hcourse.creates.dictionary_eq, show entered.dictionary = before.dictionary by rw [hcourse.enters.machine_eq]]
  rfl

theorem retains : before.Retains after := by
  have hend : dictionaryEnd ≤ returnStack ∧ dictionaryEnd < 2 ^ 31 := by decide
  have hgrow := le_aligned before.dictionary.here
  have hmoved := hcourse.enters.withIp (Header.body definer.token + 4)
  have hdict : entered.dictionary = before.dictionary := by rw [hcourse.enters.machine_eq]
  have hcalm := Machine.Retains.of_calm hmoved.calm
  have hbeh := hcourse.behaviour_le
  obtain ⟨_, _, hdir⟩ := hcourse.creates.directed hmoved.bounded hcourse.room (by omega : definer.behaviour < 2 ^ 31)
  refine ⟨hcourse.ends.bounded, ?_, ?_, ?_⟩
  · rw [hcourse.dictionary_eq]
    simp only
    omega
  · rw [hcourse.dictionary_eq]
    exact Nat.sub_le _ _
  · refine (hcalm.trans hcourse.creates.retains).memory.trans ((hdir.mono fun addr hin => ?_).trans
      (hcourse.ends.memory.mono fun addr hin => ?_))
    · simp only [hdict] at hin
      exact .inr (.inl hin)
    · exact .inr (.inr (Nat.le_trans hend.1 (Follows.above addr hin)))

theorem laid_eq : (Child.made before after).laid = built.laid := by
  have horder := order
  have hmoved := hcourse.enters.withIp (Header.body definer.token + 4)
  have hbeh := hcourse.behaviour_le
  have hroom := hcourse.room
  have hnames : made.dictionary.names ≤ dictionaryEnd := hcourse.creates.bounded.dictionary.names_le
  obtain ⟨_, hbytes, hsame⟩ := hcourse.creates.directed hmoved.bounded hroom (by omega : definer.behaviour < 2 ^ 31)
  have hlen : after.dictionary.here - made.dictionary.here = built.laid.length := by
    rw [hcourse.dictionary_eq, hcourse.made_here]
    exact Nat.add_sub_cancel_left _ _
  rw [Child.made]
  rw [← hcourse.made_here, hlen, hcourse.ends.memory.bytesAt ?_ fun addr _ hhigh hin => ?_]
  · exact hbytes
  · rw [hsame.size, hcourse.creates.bounded.size_eq]
    omega
  · have habove := Follows.above addr hin
    omega

theorem entry (hb : before.Bounded) :
    ∃ nameAddress link, after.dictionary.names ≤ nameAddress ∧
      nameAddress + ((encode name).length + 1) ≤ dictionaryEnd ∧ HoldsEntry after.memory nameAddress
        ⟨aligned before.dictionary.here, link, name, 0, definer.behaviour, Code.does.toCell⟩ := by
  have horder := order
  have hmoved := hcourse.enters.withIp (Header.body definer.token + 4)
  have hdict : entered.dictionary = before.dictionary := by rw [hcourse.enters.machine_eq]
  have hbeh := hcourse.behaviour_le
  have hnames : before.dictionary.names ≤ dictionaryEnd := hb.dictionary.names_le
  obtain ⟨⟨link, hheld⟩, _, hsame⟩ :=
    hcourse.creates.directed hmoved.bounded hcourse.room (by omega : definer.behaviour < 2 ^ 31)
  have hmeet := hcourse.creates.room.meet
  simp only [hdict] at hheld hmeet
  have hnameAddress : (headed before.dictionary name).names = before.dictionary.names - ((encode name).length + 1) :=
    rfl
  refine ⟨_, link, ?_, ?_, hheld.frame hcourse.ends.memory (fun addr _ hhigh hin => ?_)
    (fun addr _ hhigh hin => ?_) ?_⟩
  · exact Nat.le_of_eq (by rw [hcourse.dictionary_eq])
  · omega
  · have habove := Follows.above addr hin
    simp only at hhigh
    omega
  · have habove := Follows.above addr hin
    simp only at hhigh
    omega
  · rw [hsame.size, hcourse.creates.bounded.size_eq]
    simp only
    omega

theorem kin (hb : before.Bounded) : definer.Kin after (Child.made before after) := by
  have hgrow := le_aligned before.dictionary.here
  have hstart := hb.dictionary.start_le
  rw [hb.dictionary.start_eq] at hstart
  change dictionaryStart ≤ _ at hstart
  have htoken : (Child.made before after).token = aligned before.dictionary.here + 16 := rfl
  have hhere : after.dictionary.here = aligned before.dictionary.here + 20 + built.laid.length := by
    rw [hcourse.dictionary_eq]
  obtain ⟨nameAddress, link, hname, hlast, hheld⟩ := hcourse.entry hb
  have hlaid := hcourse.laid_eq
  refine ⟨⟨nameAddress, link, name, hname, hlast, ?_⟩, by omega, ?_, ?_⟩
  · exact hheld
  · rw [hlaid, htoken, Header.body]
    omega
  · have hlen : after.dictionary.here - Header.body (Child.made before after).token = built.laid.length := by
      rw [htoken, Header.body, hhere]
      omega
    rw [hlaid, ← hlen, ← hlaid]
    rfl

end Definer.Course

/-- What a defining word does when it is interpreted: it makes a word with the name that comes next, lays down behind its
header what the first part means, and leaves all that was in the dictionary. -/
structure Definer.Made (definer : Definer) (before after : Machine) : Prop where
  retains : before.Retains after
  kin : definer.Kin after (Child.made before after)
  named : ∀ bytes name rest, Reading bytes before → Text.words bytes = encode name :: rest →
    ∃ header, Dictionary.header after.memory (aligned before.dictionary.here) = .ok header ∧ header.name = name
  built : ∀ items returns, before.data.Carries before.memory items → before.returns.Carries before.memory returns →
    ∃ built, Build.run (Header.body (Child.made before after).token) after.dictionary.names definer.build
        ⟨items, Cell.ofNat 0 :: returns, []⟩ = .ok built ∧
      (Child.made before after).laid = built.laid ∧ after.data.Carries after.memory built.items ∧
      after.returns.Carries after.memory returns

theorem Definer.Erected.made
    (herected : definer.Erected words before) (hb : before.Bounded) (hbal : Balanced definer.build)
    (hmakes : definer.Makes before after) : definer.Made before after := by
  obtain ⟨items, returns, hrefl⟩ := Follows.exists_refl hb
  obtain ⟨name, entered, made, built, hcourse⟩ := herected.course hbal hrefl hmakes
  refine ⟨hcourse.retains, hcourse.kin hb, fun bytes other rest hrd hwords => ?_,
    fun items returns hitems hret => ?_⟩
  · have horder := order
    have hmoved := hcourse.enters.withIp (Header.body definer.token + 4)
    have hread := (hcourse.enters.reading hb hrd).withIp (Header.body definer.token + 4)
    obtain ⟨toIn, hname, _⟩ := requireName_of_reading hread hmoved.bounded hwords
    obtain ⟨read, hreads⟩ := hcourse.reads
    cases hreads.symm.trans hname
    obtain ⟨nameAddress, link, _, hlast, hheld⟩ := hcourse.entry hb
    have hbelow := (hcourse.kin hb).below
    have hhere := hcourse.ends.bounded.dictionary.here_le
    have hsize := hcourse.ends.bounded.size_eq
    have hbody : Header.body (Child.made before after).token = aligned before.dictionary.here + 20 := rfl
    exact ⟨_, hheld.header_eq (by simp only [size]; omega) (by simp only; omega), rfl⟩
  · obtain ⟨name, entered, made, built, hcourse⟩ :=
      herected.course hbal ⟨hb, rfl, .refl _ _, hitems, hret⟩ hmakes
    have hbuilds := hcourse.builds
    have hnames : made.dictionary.names = after.dictionary.names := by
      rw [show after.dictionary = (made.laid built.laid).dictionary by rw [hcourse.ends.machine_eq]; rfl]
      rfl
    rw [hcourse.made_here, hnames] at hbuilds
    exact ⟨built, hbuilds, hcourse.laid_eq, hcourse.ends.items, hcourse.ends.returns⟩

end ThreadedForth
