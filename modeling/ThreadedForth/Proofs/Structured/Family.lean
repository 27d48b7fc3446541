
import ThreadedForth.Proofs.Structured.Children

/-!
# Families

The children of a defining word, made one after the other with anything else appended to the dictionary in between. They
all do what stands behind `DOES>`, each of them above the address of its own body, for as long as the dictionary is only
appended to. Running them or making more of them does no more than that.
-/

namespace ThreadedForth

open WordM Dictionary Layout Utf8 Header Compiled
open Interpreter

/-! ### What a child does -/

namespace Definer

variable {definer : Definer} {words : List Compiled} {child : Child} {m : Machine} {items : Items}
  {returns : List Cell}

/-- What a child means: the program of the second part, above the address of the body. -/
def meaning (definer : Definer) (words : List Compiled) (child : Child) (items : Items) (fuel : Nat) :
    Option (Except Fault Items) :=
  EvalM.outcome (EvalM.aboveBody child.token (definer.body.eval ((vocabulary words).eval fuel) fuel [])) items

/-- The child does what it means, whether it is interpreted by its name, executed by its token or called in a thread, and
whatever comes of that, the dictionary is left alone. -/
structure Enacts (definer : Definer) (words : List Compiled) (child : Child) (m : Machine) : Prop where
  interpreted : ∀ word header items returns, ¬ m.Compiling → m.findHeader? word = .ok (some header) →
    header.xt = child.token → m.data.Carries m.memory items → m.returns.Carries m.memory returns →
    Refines m returns (fun fuel => interpretToken (serve fuel) word m)
      (definer.meaning words child items) ∧
    ∀ fuel, m.Retains (stateAfter (interpretToken (serve fuel) word) m)
  executed : ∀ items returns, m.data.Carries m.memory (Cell.ofNat child.token :: items) →
    m.returns.Carries m.memory returns →
    Refines m returns
      (fun fuel => dispatch (serve fuel) (Prim.thread .execute).token m)
      (definer.meaning words child items) ∧
    ∀ fuel, m.Retains
      (stateAfter (dispatch (serve fuel) (Prim.thread .execute).token) m)
  called : ∀ items returns, 0 < m.ip → m.ip % 4 = 0 → m.ip + 4 ≤ dictionaryEnd →
    m.memory.cellAt m.ip = Cell.ofNat child.token → m.data.Carries m.memory items →
    m.returns.Carries m.memory returns →
    ∀ fuel, GoesOn m returns fuel (definer.meaning words child items fuel)

namespace Kin

variable (hkin : definer.Kin m child)

include hkin

theorem interpretToken_eq {word : String} {header : Header}
    (hb : m.Bounded) (hresting : ¬ m.Compiling) (hfound : m.findHeader? word = .ok (some header))
    (hxt : header.xt = child.token) (serve : Serve) :
    interpretToken serve word m = serve (.execute child.token) m := by
  have hread := header_of_findHeader? hfound
  have haddr : header.address = ofToken child.token := by
    rw [← hxt, xt, Header.token, ofToken, Nat.add_sub_cancel]
  obtain ⟨link, name, hhdr⟩ := hkin.header_eq hb
  rw [haddr] at hread
  cases hread.symm.trans hhdr
  rw [interpretToken_of_interpreted hb hresting hfound
    (show (!lacks 0 compileOnly) = false by decide), hxt]

theorem token_le (hb : m.Bounded) : child.token ≤ dictionaryEnd := by
  have hbelow := hkin.below
  have hhere := hb.dictionary.here_le
  have hnames : m.dictionary.names ≤ dictionaryEnd := hb.dictionary.names_le
  rw [Header.body] at hbelow
  omega

theorem executes (herected : definer.Erected words m)
    (hfol : Follows m ⟨m.ip, items, returns⟩ m) (fuel : Nat) :
    Realizes m returns (fun fuel => serve fuel (.execute child.token) m) fuel
      (definer.meaning words child items fuel) ∧
    m.Retains (stateAfter (serve fuel (.execute child.token)) m) := by
  have hdir := hkin.directed hfol.bounded (herected.behaviour_le hfol.bounded)
  have hattains (pushed : Items) := herected.attains m.memory.cellAt (fun _ _ _ _ => rfl) fuel 0 pushed returns
    (Nat.zero_le _)
  have hpr := herected.supplied.primed
  exact ⟨hdir.realizes hpr hfol hattains,
    .of_calm (hdir.calm_execute hpr hfol hattains (Nat.le_refl fuel))⟩

theorem enacts (herected : definer.Erected words m) (hb : m.Bounded) : definer.Enacts words child m := by
  have hpr := herected.supplied.primed
  refine ⟨fun word header items returns hresting hfound hxt hitems hret => ?_,
    fun items returns hitems hret => ?_,
    fun items returns hpos halign hrange hcell hitems hret fuel => ?_⟩
  · have hfol : Follows m ⟨m.ip, items, returns⟩ m :=
      ⟨hb, rfl, .refl _ _, hitems, hret⟩
    have hserve := hkin.interpretToken_eq hb hresting hfound hxt
    have hexecutes := hkin.executes herected hfol
    refine ⟨refines_of_realizes (fun fuel => ?_) fun {fuel more} hfuel => ?_, fun fuel => ?_⟩
    · simp only [hserve]
      exact (hexecutes fuel).1
    · have := fun request => extends_serve hfuel request
      exact (extends_interpretToken (serve fuel) (serve more) word).extends_ m
    · rw [stateAfter, hserve]
      exact (hexecutes fuel).2
  · have hfol : Follows m ⟨m.ip, Cell.ofNat child.token :: items, returns⟩ m :=
      ⟨hb, rfl, .refl _ _, hitems, hret⟩
    obtain ⟨popped, hpop, hserve⟩ := hfol.dispatch_execute hpr (hkin.token_le hb)
    have hretn := Machine.Retains.of_calm hpop.calm
    have hexecutes := (hkin.retains hb hretn).executes (herected.retains hb hretn)
      ⟨hpop.bounded, rfl, .refl _ _, hpop.items, hpop.returns⟩
    refine ⟨refines_of_realizes (fun fuel => ?_) fun {fuel more} hfuel => ?_, fun fuel => ?_⟩
    · simp only [hserve]
      exact (hexecutes fuel).1.of_follows hpop
    · have := fun request => extends_serve hfuel request
      exact (extends_dispatch (serve fuel) (serve more) _).extends_ m
    · rw [stateAfter, hserve]
      exact hretn.trans (hexecutes fuel).2
  · have hdir := hkin.directed hb (herected.behaviour_le hb)
    exact hdir.goesOn hpr ⟨hb, rfl, .refl _ _, hitems, hret⟩ hpos halign hrange hcell
      fun pushed => herected.attains m.memory.cellAt (fun _ _ _ _ => rfl) fuel _ pushed returns hrange

end Kin

end Definer

/-! ### All of them -/

/-- The children that a defining word has had, newest first. In between, the dictionary may have grown in any way. -/
inductive Definer.Family (definer : Definer) (start : Machine) : List Child → Machine → Prop where
  | none : Family definer start [] start
  | grow {children : List Child} {before after : Machine} (hfamily : Family definer start children before)
      (hretn : before.Retains after) : Family definer start children after
  | make {children : List Child} {before after : Machine} (hfamily : Family definer start children before)
      (hmakes : definer.Makes before after) : Family definer start (Child.made before after :: children) after

theorem Definer.Family.invariant {definer : Definer} {words : List Compiled} {start m : Machine}
    {children : List Child} (herected : definer.Erected words start) (hb : start.Bounded)
    (hbal : Balanced definer.build) (hfamily : definer.Family start children m) :
    m.Bounded ∧ start.Retains m ∧ definer.Erected words m ∧
      ∀ child ∈ children, definer.Kin m child := by
  induction hfamily with
  | none => exact ⟨hb, .refl hb, herected, fun _ hnone => by cases hnone⟩
  | grow _ hretn ih =>
    obtain ⟨hbefore, hkept, hstands, hkin⟩ := ih
    exact ⟨hretn.bounded, hkept.trans hretn, hstands.retains hbefore hretn,
      fun child hchild => (hkin child hchild).retains hbefore hretn⟩
  | make _ hmakes ih =>
    obtain ⟨hbefore, hkept, hstands, hkin⟩ := ih
    have hmade := hstands.made hbefore hbal hmakes
    have hretn := hmade.retains
    refine ⟨hretn.bounded, hkept.trans hretn, hstands.retains hbefore hretn, fun child hchild => ?_⟩
    rcases List.mem_cons.1 hchild with rfl | hchild
    · exact hmade.kin
    · exact (hkin child hchild).retains hbefore hretn

section Examples

variable {words : List Compiled} {entries : List Header} {m : Machine} {name : String} {build : List BuildWord}
  {body : Prog} {lines : List String}

theorem Equipped.definerText {building running : List String} (hequipped : Equipped entries words)
    (htext : DefinitionText name ("create" :: building ++ "does>" :: running) lines)
    (hbuilding : List.Forall₂ (Spells (vocabulary words)) building (build.map BuildWord.piece))
    (hrunning : List.Forall₂ (Spells (vocabulary words)) running body.pieces)
    (hvalid : body.isValid (vocabulary words) 0 = true) :
    DefinerText entries (.ok 10) words name build body lines := by
  obtain ⟨does, hdoes, hdoesEnters⟩ := @Equipped.prims _ _ hequipped (.defining .does) "does>" (by decide)
  obtain ⟨colon, hcolon, hcolonEnters⟩ := @Equipped.prims _ _ hequipped (.defining .colon) ":" (by decide)
  obtain ⟨semicolon, hsemi, hsemicolonEnters⟩ := @Equipped.prims _ _ hequipped (.defining .semicolon) ";" (by decide)
  refine ⟨⟨"create", building, "does>", running, htext, hequipped.resolves (.word (by decide)),
    hbuilding.imp fun _ _ => hequipped.resolves, hdoesEnters.calls hdoes (by decide),
    hrunning.imp fun _ _ => hequipped.resolves⟩, hcolonEnters.calls hcolon (by decide),
    hsemicolonEnters.calls hsemi (by decide), hvalid⟩

theorem lookup_defined (entries : List Header) (dictionary : Dictionary) (name : String) :
    let entry := (headedEntry entries dictionary name smudged .colon).revealed
    lookup (entry :: entries) name = some entry ∧ entry.isCompileOnly = false := by
  intro entry
  have hflags : entry.flags = 0 := by
    change smudged &&& ~~~smudged = 0
    decide
  refine ⟨lookup_cons_of_name ?_ ((sameName_iff name name).2 rfl), ?_⟩
  · rw [isVisible, hflags]
    decide
  · rw [isCompileOnly, hflags]
    decide

/-- The machine rests with nothing on its stacks, as it does after its start. -/
structure Rested (entries : List Header) (m : Machine) : Prop where
  stocked : Stocked [] entries m
  base_eq : m.base = .ok 10
  empty : m.data.top = m.data.base
  returned : m.returns.top = m.returns.base

theorem exists_rested : ∃ m, (∀ fuel, Session.start fuel false (Machine.new .empty false) = .ok () m) ∧
    Rested builtin.1 m ∧ Equipped builtin.1 [] ∧ m.dictionary = builtin.2 := by
  obtain ⟨m, hstart, hholds⟩ := Session.start_eq .empty false
  have hequipped := @equipped_of_start [] fun _ hnone => by cases hnone
  have hknows : Knows [] builtin.1 m := by
    refine ⟨hholds.fresh.idle, hholds.fresh.base_eq, hholds.fresh.exiting_eq, hequipped, fun other _ => ⟨?_, ?_⟩⟩
    · exact fun _ _ hresolve => by cases hresolve
    · exact fun _ _ _ hresolve => by cases hresolve
  exact ⟨m, hstart, ⟨hknows.stocked, hholds.fresh.base_eq, hholds.fresh.empty, hholds.fresh.returned⟩, hequipped,
    hholds.dictionary_eq⟩

theorem Rested.defines (hrested : Rested entries m) (htext : DefinerText entries (.ok 10) [] name build body lines)
    (hfits : Definer.Fits ⟨Header.token (aligned m.dictionary.here), build, body⟩ name m.dictionary) :
    ∃ fuel after, lines.forM (Session.interpretLine fuel) m = .ok () after ∧
      Definer.Erected ⟨Header.token (aligned m.dictionary.here), build, body⟩ [] after ∧
      Rested ((headedEntry entries m.dictionary name smudged .colon).revealed :: entries) after ∧
      after.dictionary.here = body.finish ((headed m.dictionary name).here +
        4 * (Definer.values ⟨Header.token (aligned m.dictionary.here), build, body⟩).length) + 4 ∧
      after.dictionary.names = (headed m.dictionary name).names := by
  rw [← hrested.base_eq] at htext
  obtain ⟨after, ⟨fuel, hends⟩, hsame, hhere, hnames⟩ := hrested.stocked.defines htext hfits
  obtain ⟨herected, hstocked⟩ := hrested.stocked.erected htext (hends fuel (Nat.le_refl fuel))
  refine ⟨fuel, after, hends fuel (Nat.le_refl fuel), herected, ⟨hstocked, hsame.base_eq.trans hrested.base_eq, ?_, ?_⟩,
    hhere, hnames⟩
  · rw [hsame.machine]
    exact hrested.empty
  · rw [hsame.machine]
    exact hrested.returned

/-- The machine is about to read a line, with a cell on its data stack. -/
theorem Rested.reads (hrested : Rested entries m) {line : String}
    (hline : (encode line).length ≤ inputBufferSize) (value : Cell) :
    ∃ next, m.Retains next ∧ next.dictionary = m.dictionary ∧ Idle entries next ∧
      Reading (encode line) next ∧ Follows next ⟨next.ip, [value], []⟩ next := by
  have horder := order
  obtain ⟨next, hreadOn, hrd⟩ : ∃ next, ReadOn m next ∧ Reading (encode line) next :=
    ⟨_, .withLine m hline, reading_withLine hrested.stocked.idle.bounded hline⟩
  have hidle := hreadOn.idle hrested.stocked.idle
  have hdict : next.dictionary = m.dictionary := by rw [hreadOn.machine]
  have hretn : m.Retains next := by
    refine ⟨hidle.bounded, Nat.le_of_eq (by rw [hdict]), Nat.le_of_eq (by rw [hdict]), ?_⟩
    refine hreadOn.memory.mono fun addr hin => .inl ?_
    rw [Region.holds_mk] at hin
    omega
  have hitems : next.data.Carries next.memory [] := by
    refine ⟨?_, nofun⟩
    rw [show next.data = m.data by rw [hreadOn.machine]]
    exact hrested.empty
  have hret : next.returns.Carries next.memory [] := by
    refine ⟨?_, nofun⟩
    rw [show next.returns = m.returns by rw [hreadOn.machine]]
    exact hrested.returned
  have hplays := denotes_push value next ⟨next.ip, [], []⟩
  rw [show StackM.onThread (StackM.push value) ⟨next.ip, [], []⟩ = .ok ((), ⟨next.ip, [value], []⟩) from rfl] at hplays
  obtain ⟨pushed, _, hpush⟩ := hplays next ⟨hidle.bounded, rfl, .refl _ _, hitems, hret⟩
  have hip : pushed.ip = next.ip := hpush.ip_eq
  refine ⟨pushed, hretn.trans (.of_calm hpush.calm), ?_, hpush.idle hidle, hpush.reading hidle.bounded hrd,
    hpush.bounded, rfl, .refl _ _, hpush.items, hpush.returns⟩
  rw [hpush.machine_eq]
  exact hdict

variable {before : Machine}

theorem Rested.opens {defined : Machine} (hdefined : Rested
      ((headedEntry entries before.dictionary "d" smudged .colon).revealed :: entries) defined)
    (herected : Definer.Erected ⟨Header.token (aligned before.dictionary.here), build, body⟩ [] defined)
    (hspace : aligned defined.dictionary.here + 22 < defined.dictionary.names) (value : Cell) :
    ∃ line made, defined.Retains line ∧ line.dictionary = defined.dictionary ∧
      line.data.Carries line.memory [value] ∧ line.returns.Carries line.memory [] ∧ defined.Retains made ∧
      made.dictionary = headed defined.dictionary "c" ∧
      Follows made ⟨Header.body (Header.token (aligned before.dictionary.here)) + 4, [value], [Cell.ofNat 0]⟩ made ∧
      ∀ count last, (∀ serve fuel, runThread serve (fuel + count) made = .ok () last) →
        Definer.Makes ⟨Header.token (aligned before.dictionary.here), build, body⟩ line { last with ip := line.ip } := by
  obtain ⟨line, hline, hsame, hidle, hrd, hrefl⟩ := @Rested.reads _ _ hdefined "c" (by decide) value
  obtain ⟨hlook, honly⟩ := lookup_defined entries before.dictionary "d"
  have hwords : Text.words (encode "c") = encode "c" :: [] := by decide
  have hroom : HeaderRoom "c" line.dictionary := by
    rw [hsame]
    exact ⟨by decide, hspace⟩
  have hstands := herected.retains hdefined.stocked.idle.bounded hline
  obtain ⟨made, hretn, hdict, hmade, hopens⟩ :=
    hstands.opens hidle hrefl (by decide) hlook rfl honly hrd hwords hroom
  rw [hsame] at hdict
  exact ⟨line, made, hline, hsame, hrefl.items, hrefl.returns, hline.trans hretn, hdict, hmade, hopens⟩

theorem Machine.Retains.directed {made : Machine} (hretn : before.Retains made)
    (hlow : before.dictionary.here ≤ made.dictionary.latest)
    (hhigh : made.dictionary.latest + size ≤ before.dictionary.names) (behaviour : Nat) :
    before.Retains (made.directed behaviour) := by
  have hset := sameOutside_setDoes made.dictionary.latest Code.does.toCell (Cell.ofNat behaviour) made.memory
  refine ⟨hretn.bounded.withMemory hset.size, hretn.here_le, hretn.names_le,
    hretn.memory.trans (hset.mono fun addr hin => .inr (.inl ?_))⟩
  rw [Region.holds_mk] at hin
  have hsize : size = 20 := rfl
  have hfield : doesField made.dictionary.latest = made.dictionary.latest + 12 := rfl
  omega

end Examples

end ThreadedForth
