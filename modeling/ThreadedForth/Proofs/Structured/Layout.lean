
import ThreadedForth.Proofs.Structured.Holes

/-!
# Laying structured code down

The words of a structured program, compiled one after the other into a draft, lay the program's code down.
The exits from the loop around the program are holes; it is the code of the program however they are filled,
as long as they all lead to one place. The words fail only for a lack of room.
-/

namespace ThreadedForth

open Draft List Prog

/-! ### Compiling words -/

/-- What one word of a program's text makes of a draft. -/
def Piece.draft (resolve : String → Option Nat) : Piece → Draft → Option Draft
  | .number value => Draft.number value
  | .word (.control structured) => structured.draft
  | .word prim => compile prim
  | .call name => fun draft => (resolve name).bind fun token => draft.emit (Cell.ofNat token)

/-- What the words of a text make of a draft. -/
def lay (resolve : String → Option Nat) (pieces : List Piece) (draft : Draft) : Option Draft :=
  pieces.foldlM (fun draft piece => piece.draft resolve draft) draft

namespace Does

variable {resolve : String → Option Nat} {draft : Draft} {room : Prop} {middle post : Draft → Prop}

theorem last {piece : Piece} (hpiece : Does room (piece.draft resolve draft) post) :
    Does room (lay resolve [piece] draft) post := by
  rw [lay, foldlM_cons]
  exact hpiece.bind fun _ hnext => hnext

theorem append {first rest : List Piece} (hfst : Does room (lay resolve first draft) middle)
    (hrest : ∀ next, middle next → Does room (lay resolve rest next) post) :
    Does room (lay resolve (first ++ rest) draft) post := by
  rw [lay, foldlM_append]
  exact hfst.bind hrest

theorem cons {piece : Piece} {rest : List Piece} (hpiece : Does room (piece.draft resolve draft) middle)
    (hrest : ∀ next, middle next → Does room (lay resolve rest next) post) :
    Does room (lay resolve ([piece] ++ rest) draft) post :=
  append (last hpiece) hrest

end Does

/-! ### Structures -/

/-- All that is called is there. -/
def Reaches (cells : Nat → Cell) (resolve : String → Option Nat) : Prop :=
  ∀ name token, resolve name = some token → (Op.call token).Sound cells

/-- The code of the program was added to the draft. -/
structure Prog.Laid (resolve : String → Option Nat) (prog : Prog) (draft next : Draft) : Prop where
  grown : Grown draft next
  here_eq : next.here = prog.finish draft.here
  markers_eq : next.markers = file (prog.exits draft.here) draft.markers
  code : ∀ {cells : Nat → Cell} {out : Nat}, Reaches cells resolve → out ≤ Layout.dictionaryEnd →
    Agrees cells draft.here next (prog.exits draft.here) → Filled cells (prog.exits draft.here) out →
      prog.CodeAt cells resolve draft.here out

/-- The code of the clauses was added to the draft. The ends of the clauses are holes as well. -/
structure Arms.Laid (resolve : String → Option Nat) (arms : Arms) (draft next : Draft) : Prop where
  grown : Grown draft next
  here_eq : next.here = arms.finish draft.here
  markers_eq : next.markers =
    (arms.ends draft.here).map (Marker.mk .endOf) ++ file (arms.exits draft.here) draft.markers
  code : ∀ {cells : Nat → Cell} {out done : Nat}, Reaches cells resolve → out ≤ Layout.dictionaryEnd →
    done ≤ Layout.dictionaryEnd →
      Agrees cells draft.here next (arms.ends draft.here ++ arms.exits draft.here) →
        Filled cells (arms.exits draft.here) out → Filled cells (arms.ends draft.here) done →
          arms.CodeAt cells resolve draft.here out done

theorem Filled.of_append {cells : Nat → Cell} {places more : List Nat} {target : Nat}
    (hfilled : Filled cells (more ++ places) target) : Filled cells more target ∧ Filled cells places target :=
  ⟨fun place hplace => hfilled place (mem_append_left _ hplace),
    fun place hplace => hfilled place (mem_append_right _ hplace)⟩

section Structures

-- each structure: from the steps of its words, and the code of its parts, to its own code

variable {resolve : String → Option Nat} {draft opened marked middle divided ended next : Draft}
  {body other test : Prog} {markers after outside : List Marker}

theorem laid_op {prog : Prog} {op : Op} (hsane : draft.Sane)
    (hchunk : Chunk (Cell.ofNat op.token :: op.operands (draft.here + 4)) draft.markers draft next)
    (hfin : prog.finish draft.here = draft.here + op.size) (hexits : prog.exits draft.here = [])
    (hcode : ∀ {cells : Nat → Cell} {out : Nat}, Reaches cells resolve → (op.Sound cells → OpAt cells draft.here op) →
      prog.CodeAt cells resolve draft.here out) : prog.Laid resolve draft next := by
  refine ⟨hchunk.grown hsane, ?_, ?_, fun hreaches _ hagrees _ => hcode hreaches fun hsound => ?_⟩
  · rw [hchunk.here_eq, length_cons, op.length_operands, hfin, Op.size]
    omega
  · rw [hchunk.markers_eq, hexits, file_nil]
  · exact hchunk.opAt hsane (hexits ▸ hagrees) hsound

theorem laid_seq {before after : Prog} (hbefore : before.Laid resolve draft middle)
    (hafter : after.Laid resolve middle next) : (before.seq after).Laid resolve draft next := by
  have hmid := hbefore.here_eq
  have hlow := (before.between_exits draft.here).2
  have hhigh := (after.between_exits middle.here).2
  rw [← hmid] at hlow
  refine ⟨hbefore.grown.trans hafter.grown, ?_, ?_, fun hreaches hout hagrees hfilled => ?_⟩
  · rw [hafter.here_eq, hmid, finish]
  · rw [hafter.markers_eq, hbefore.markers_eq, exits, file_append, hmid]
  · rw [exits, ← hmid] at hagrees hfilled
    have ⟨hafters, hbefores⟩ := hfilled.of_append
    obtain ⟨hfst, hsnd⟩ := hagrees.split (before.exits draft.here) (after.exits middle.here) hafter.grown
      hbefore.grown.here_le (by grind [Between]) (by grind [Between])
    exact ⟨hbefore.code hreaches hout hfst hbefores, hmid ▸ hafter.code hreaches hout hsnd hafters⟩

section

variable (hsane : draft.Sane)

include hsane

theorem laid_ifThen (hopen : Chunk.Branch .zeroBranch markers draft opened) (hbody : body.Laid resolve opened ended)
    (hclose : Patched [draft.here + 4] (file (body.exits opened.here) draft.markers) ended next) :
    (Prog.ifThen body).Laid resolve draft next := by
  have hopened : opened.here = draft.here + 8 := hopen.here_eq
  have hgrown := (hopen.grown hsane).trans hbody.grown
  have hexits := (body.between_exits opened.here).2
  have hended := hbody.here_eq
  have hlater := hbody.grown.here_le
  refine ⟨hgrown.patched hclose (by simp), ?_, ?_, fun hreaches hout hagrees hfilled => ?_⟩
  · rw [hclose.here_eq, hended, hopened, finish]
  · rw [hclose.markers_eq, hopened, exits]
  · rw [exits, ← hopened] at hagrees hfilled
    change _ ∧ _
    rw [← hopened, ← hended]
    obtain ⟨hholes, htarget⟩ := hagrees.unpatched_one hclose (by omega) (by omega) (by grind [Between])
    obtain ⟨hbr, hbehind⟩ := @Chunk.opAt_forward _ _ _ _ _ _ (.jumpIfZero ended.here) _ hopen hbody.grown
      hholes (by grind [Between]) hsane htarget (fun _ => rfl) hgrown.sane.end_le
    exact ⟨hbr, hbody.code hreaches hout hbehind hfilled⟩

theorem laid_ifElse (hopen : Chunk.Branch .zeroBranch markers draft opened) (hbody : body.Laid resolve opened middle)
    (hdivide : Divided (draft.here + 4) (⟨.else_, middle.here + 4⟩ :: file (body.exits opened.here) draft.markers)
      middle divided) (hother : other.Laid resolve divided ended)
    (hclose : Patched [middle.here + 4]
      (file (other.exits divided.here) (file (body.exits opened.here) draft.markers)) ended next) :
    (Prog.ifElse body other).Laid resolve draft next := by
  have hopened : opened.here = draft.here + 8 := hopen.here_eq
  have hgrown := (hopen.grown hsane).trans hbody.grown
  have hmid := hbody.here_eq
  have hlater := hbody.grown.here_le
  have hdivided := hdivide.here_eq
  have hwhole := (hdivide.grown hgrown (by omega)).trans hother.grown
  have hended := hother.here_eq
  have hlast := hother.grown.here_le
  have hexits := (body.between_exits opened.here).2
  have hothers := (other.between_exits divided.here).2
  rw [← hmid] at hexits
  refine ⟨hwhole.patched hclose (by simp; omega), ?_, ?_, fun hreaches hout hagrees hfilled => ?_⟩
  · rw [hclose.here_eq, hended, hdivided, hmid, hopened, finish]
  · rw [hclose.markers_eq, ← file_append, exits, hdivided, hmid, hopened]
  · rw [exits, ← hopened, ← hmid, ← hdivided] at hagrees hfilled
    have ⟨hoffsets, hoff⟩ := hfilled.of_append
    change _ ∧ _ ∧ _ ∧ _
    rw [← hopened, ← hmid, ← hdivided, ← hended]
    obtain ⟨hholes, htarget⟩ := hagrees.unpatched_one hclose (by omega) (by omega) (by grind [Between])
    obtain ⟨hbefore, hbehind⟩ := hholes.split ((middle.here + 4) :: body.exits opened.here)
      (other.exits divided.here) hother.grown (by omega) (by grind [Between]) (by grind [Between])
    obtain ⟨hjump, hearlier, hzero⟩ := hdivide.code hgrown.sane hbefore (by omega) (by omega) (by grind [Between])
      (by grind [Between]) htarget hwhole.sane.end_le
    obtain ⟨hbr, hfst⟩ := @Chunk.opAt_forward _ _ _ _ _ _ (.jumpIfZero divided.here) _ hopen hbody.grown
      hearlier (by grind [Between]) hsane (hdivided ▸ hzero) (fun _ => rfl) (by have := hwhole.sane.end_le; exact Nat.le_trans hlast this)
    exact ⟨hbr, hbody.code hreaches hout hfst hoff, hjump, hother.code hreaches hout hbehind hoffsets⟩

/-- A loop that ends with a branch back to its start. -/
theorem laid_back {prog : Prog} {op : Op} (hopen : Chunk [] markers draft opened)
    (hbody : body.Laid resolve opened ended)
    (hback : Chunk (Cell.ofNat op.token :: op.operands (ended.here + 4)) (file (body.exits draft.here) draft.markers)
      ended next) (hsize : op.size = 8) (hsound : ∀ cells : Nat → Cell, op.Sound cells)
    (hfin : prog.finish draft.here = body.finish draft.here + 8)
    (hexits : prog.exits draft.here = body.exits draft.here)
    (hcode : ∀ {cells : Nat → Cell} {out : Nat}, body.CodeAt cells resolve draft.here out →
      OpAt cells (body.finish draft.here) op → prog.CodeAt cells resolve draft.here out) :
    prog.Laid resolve draft next := by
  have hopened : opened.here = draft.here := hopen.here_eq
  have hgrown := (hopen.grown hsane).trans hbody.grown
  have hended := hbody.here_eq
  rw [hopened] at hended
  have hins := (body.between_exits draft.here).2
  rw [← hended] at hins
  refine ⟨hgrown.trans (hback.grown hgrown.sane), ?_, ?_, fun hreaches hout hagrees hfilled => ?_⟩
  · rw [hback.here_eq, hfin, length_cons, op.length_operands, hended, ← hsize, Op.size]
    omega
  · rw [hback.markers_eq, hexits]
  · rw [hexits] at hagrees hfilled
    obtain ⟨hbefore, hbehind⟩ := hagrees.split (body.exits draft.here) [] (hback.grown hgrown.sane) hgrown.here_le
      (by grind) (by grind [Between])
    rw [← hopened] at hbefore hfilled
    refine hcode (hopened ▸ hbody.code hreaches hout hbefore hfilled) ?_
    rw [← hended]
    exact hback.opAt hgrown.sane hbehind (hsound _)

theorem laid_whileLoop (hopen : Chunk [] markers draft opened)
    (htest : test.Laid resolve opened middle) (hbr : Chunk.Branch .zeroBranch after middle divided)
    (hbody : body.Laid resolve divided ended) (hback : Chunk.Back .branch draft.here outside ended marked)
    (hclose : Patched [middle.here + 4]
      (file (body.exits divided.here) (file (test.exits draft.here) draft.markers)) marked next) :
    (Prog.whileLoop test body).Laid resolve draft next := by
  have hopened : opened.here = draft.here := hopen.here_eq
  have hgrown := (hopen.grown hsane).trans htest.grown
  have hmid := htest.here_eq
  have hdivided : divided.here = middle.here + 8 := hbr.here_eq
  have hinner := (hgrown.trans (hbr.grown hgrown.sane)).trans hbody.grown
  have hended := hbody.here_eq
  have hmarked : marked.here = ended.here + 8 := hback.here_eq
  have hwhole := hinner.trans (hback.grown hinner.sane)
  have htests := (test.between_exits opened.here).2
  have hbodies := (body.between_exits divided.here).2
  have hfst := htest.grown.here_le
  have hlater := hbody.grown.here_le
  rw [← hmid] at htests
  rw [← hended] at hbodies
  refine ⟨hwhole.patched hclose (by simp; omega), ?_, ?_, fun {cells} _ hreaches hout hagrees hfilled => ?_⟩
  · rw [hclose.here_eq, hmarked, hended, hdivided, hmid, hopened, finish]
  · rw [hclose.markers_eq, ← file_append, exits, hdivided, hmid, hopened]
  · rw [exits, ← hopened, ← hmid, ← hdivided] at hagrees hfilled
    have ⟨hoffsets, hoff⟩ := hfilled.of_append
    change _ ∧ _ ∧ _ ∧ _
    rw [← hopened, ← hmid, ← hdivided, ← hended, ← hmarked]
    obtain ⟨hholes, htarget⟩ := hagrees.unpatched_one hclose (by omega) (by omega) (by grind [Between])
    obtain ⟨hbefore, hlast⟩ := hholes.split ((middle.here + 4) :: (body.exits divided.here ++ test.exits opened.here))
      [] (hback.grown hinner.sane) (by omega) (by grind) (by grind [Between])
    obtain ⟨hround, hbehind⟩ := hbefore.split (test.exits opened.here) ((middle.here + 4) :: body.exits divided.here)
      ((hbr.grown hgrown.sane).trans hbody.grown) (by omega) (by grind [Between]) (by grind [Between])
    obtain ⟨hzero, hins⟩ := @Chunk.opAt_forward _ _ _ _ _ _ (.jumpIfZero marked.here) _ hbr hbody.grown
      hbehind (by grind [Between]) hgrown.sane htarget (fun _ => rfl) hwhole.sane.end_le
    have hjump : OpAt cells ended.here (.jump opened.here) :=
      Chunk.opAt (hopened ▸ hback) hinner.sane hlast (hopened ▸ hsane.end_le)
    exact ⟨htest.code hreaches hout hround hoff, hzero, hbody.code hreaches hout hins hoffsets, hjump⟩

theorem laid_counted {maySkip stepped : Bool}
    (hopen : Chunk.Branch (if maySkip then .enterQuestionDo else .enterDo) markers draft opened)
    (hbody : body.Laid resolve opened ended)
    (hback : Chunk.Back (if stepped then .stepPlusLoop else .stepLoop) (draft.here + 8) after ended marked)
    (hclose : Patched ([draft.here + 4] ++ body.exits opened.here) outside marked divided)
    (hdone : Chunk [] draft.markers divided next) : (Prog.counted maySkip stepped body).Laid resolve draft next := by
  have hopened : opened.here = draft.here + 8 := hopen.here_eq
  have hgrown := (hopen.grown hsane).trans hbody.grown
  have hended := hbody.here_eq
  have hmarked : marked.here = ended.here + 8 := hback.here_eq
  have hwhole := hgrown.trans (hback.grown hgrown.sane)
  have hexits := (body.between_exits opened.here).2
  have hlater := hbody.grown.here_le
  rw [← hended] at hexits
  have hclosed := hwhole.patched hclose (by grind [Between])
  have hnext : next.here = divided.here := hdone.here_eq
  refine ⟨hclosed.trans (hdone.grown hclosed.sane), ?_, ?_, fun {cells} _ hreaches hout hagrees hfilled => ?_⟩
  · rw [hnext, hclose.here_eq, hmarked, hended, hopened, finish]
  · rw [hdone.markers_eq, exits, file_nil]
  · rw [exits] at hagrees
    change _ ∧ _ ∧ _
    rw [← hopened, ← hended, ← hmarked]
    obtain ⟨hholes, hfilled⟩ := (hagrees.unmarked hdone).unpatched hclose (by grind [Between]) (by simp)
    obtain ⟨hentry, hleaves⟩ := hfilled.of_append
    obtain ⟨hbefore, hlast⟩ := hholes.split ((draft.here + 4) :: body.exits opened.here) [] (hback.grown hgrown.sane)
      (by omega) (by grind) (by grind [Between])
    obtain ⟨henter, hins⟩ := @Chunk.opAt_forward _ _ _ _ _ _ (.enter maySkip marked.here) _ hopen hbody.grown
      hbefore (by grind [Between]) hsane (hentry _ (mem_singleton.2 rfl)) (fun _ => rfl) hwhole.sane.end_le
    have hstep : OpAt cells ended.here (.advance stepped opened.here) :=
      Chunk.opAt (hopened ▸ hback) hgrown.sane hlast (Nat.le_trans hbody.grown.here_le hgrown.sane.end_le)
    exact ⟨henter, hbody.code hreaches hwhole.sane.end_le hins hleaves, hstep⟩

theorem laid_leave (hunloop : Chunk [Cell.ofNat (Prim.thread .unloop).token] markers draft opened)
    (hbr : Chunk.Branch .branch after opened middle)
    (hfile : Chunk [] (file [opened.here + 4] draft.markers) middle next) : Prog.leave.Laid resolve draft next := by
  have hopened : opened.here = draft.here + 4 := hunloop.here_eq
  have hmid : middle.here = opened.here + 8 := hbr.here_eq
  have hgrown := hunloop.grown hsane
  have hbranched := hbr.grown hgrown.sane
  have hfiled := hfile.grown hbranched.sane
  have hnext : next.here = middle.here := hfile.here_eq
  have hexits : Prog.leave.exits draft.here = [opened.here + 4] := by
    rw [exits, hopened]
  refine ⟨(hgrown.trans hbranched).trans hfiled, ?_, ?_, fun {cells out} _ hout hagrees hfilled => ?_⟩
  · rw [hnext, hmid, hopened, finish]
  · rw [hfile.markers_eq, hexits]
  · rw [hexits] at hagrees hfilled
    obtain ⟨hfst, hsnd⟩ := hagrees.split [] [opened.here + 4] (hbranched.trans hfiled) (by omega)
      (by grind) (by grind)
    obtain ⟨hjump, _⟩ := @Chunk.opAt_forward _ _ _ _ _ [] (.jump out) _ hbr hfiled hsnd (by simp)
      hgrown.sane (hfilled _ (mem_singleton.2 rfl)) (fun _ => rfl) hout
    exact ⟨@Chunk.opAt _ _ _ _ .unloop hunloop hsane hfst trivial, hopened ▸ hjump⟩

end

theorem laid_otherwise (hbody : body.Laid resolve draft next) : (Arms.otherwise body).Laid resolve draft next :=
  ⟨hbody.grown, hbody.here_eq, hbody.markers_eq, fun hreaches hout _ hagrees hfilled _ =>
    hbody.code hreaches hout hagrees hfilled⟩

theorem laid_clause {rest : Arms} (htest : test.Laid resolve draft middle)
    (hbr : Chunk.Branch .testOf markers middle opened) (hbody : body.Laid resolve opened ended)
    (hdivide : Divided (middle.here + 4)
      (⟨.endOf, ended.here + 4⟩ :: file (body.exits opened.here) (file (test.exits draft.here) draft.markers))
      ended divided)
    (hrest : rest.Laid resolve divided next) : (Arms.clause test body rest).Laid resolve draft next := by
  have hmid := htest.here_eq
  have hopened : opened.here = middle.here + 8 := hbr.here_eq
  have hended := hbody.here_eq
  have hdivided := hdivide.here_eq
  have hgrown := (hbr.grown htest.grown.sane).trans hbody.grown
  have htests := (test.between_exits draft.here).2
  have hbodies := (body.between_exits opened.here).2
  have hrests := (rest.between_exits divided.here).2
  have hends := rest.between_ends divided.here
  have hfst := htest.grown.here_le
  have hlater := hbody.grown.here_le
  have hlast := hrest.grown.here_le
  rw [← hmid] at htests
  rw [← hended] at hbodies
  have hwhole := (hdivide.grown (htest.grown.trans hgrown) (by omega)).trans hrest.grown
  refine ⟨hwhole, ?_, ?_, fun {cells _ done} hreaches hout hdone hagrees hfilled hdones => ?_⟩
  · rw [hrest.here_eq, hdivided, hended, hopened, hmid, Arms.finish]
  · rw [hrest.markers_eq, hdivide.markers_eq, file_cons_of_ne (by simp), ← file_append, ← file_append, Arms.exits,
      Arms.ends, hdivided, hended, hopened, hmid]
    simp
  · simp only [Arms.exits, Arms.ends] at hagrees hfilled hdones
    rw [← hmid, ← hopened, ← hended, ← hdivided] at hagrees hfilled hdones
    obtain ⟨hrestOut, hbothOut⟩ := hfilled.of_append
    obtain ⟨hbodyOut, htestOut⟩ := hbothOut.of_append
    obtain ⟨hrestDone, hownDone⟩ := hdones.of_append
    change _ ∧ _ ∧ _ ∧ _ ∧ _
    rw [← hmid, ← hopened, ← hended, ← hdivided]
    obtain ⟨hbefore, hbehind⟩ := hagrees.split
      ((ended.here + 4) :: (body.exits opened.here ++ test.exits draft.here))
      (rest.ends divided.here ++ rest.exits divided.here) hrest.grown (by omega) (by grind [Between])
      (by grind [Between])
    obtain ⟨hjump, hearlier, htarget⟩ := hdivide.code hgrown.sane hbefore (by omega) (by omega)
      (by grind [Between]) (by grind [Between]) (hownDone _ (mem_singleton.2 rfl)) hdone
    obtain ⟨hround, hinner⟩ := hearlier.split (test.exits draft.here) ((middle.here + 4) :: body.exits opened.here)
      hgrown hfst (by grind [Between]) (by grind [Between])
    obtain ⟨hof, hins⟩ := @Chunk.opAt_forward _ _ _ _ _ _ (.testOf divided.here) _ hbr hbody.grown
      hinner (by grind [Between]) htest.grown.sane (hdivided ▸ htarget) (fun _ => rfl)
      (Nat.le_trans hlast hwhole.sane.end_le)
    exact ⟨htest.code hreaches hout hround htestOut, hof, hbody.code hreaches hout hins hbodyOut, hjump,
      hrest.code hreaches hout hdone hbehind hrestOut hrestDone⟩

theorem laid_case {arms : Arms} (hsane : draft.Sane) (hopen : Chunk [] markers draft opened)
    (harms : arms.Laid resolve opened ended) (hdrop : Chunk [Cell.ofNat (Prim.stack .drop).token] after ended marked)
    (hclose : Patched (arms.ends draft.here) outside marked divided)
    (hdone : Chunk [] (file (arms.exits draft.here) draft.markers) divided next) :
    (Prog.case_ arms).Laid resolve draft next := by
  have hopened : opened.here = draft.here := hopen.here_eq
  have hgrown := (hopen.grown hsane).trans harms.grown
  have hended := harms.here_eq
  rw [hopened] at hended
  have hmarked : marked.here = ended.here + 4 := hdrop.here_eq
  have hwhole := hgrown.trans (hdrop.grown hgrown.sane)
  have hexits := (arms.between_exits draft.here).2
  have hends := arms.between_ends draft.here
  rw [← hended] at hexits hends
  have hclosed := hwhole.patched hclose (by grind [Between])
  have hnext : next.here = divided.here := hdone.here_eq
  refine ⟨hclosed.trans (hdone.grown hclosed.sane), ?_, ?_, fun {cells _} hreaches hout hagrees hfilled => ?_⟩
  · rw [hnext, hclose.here_eq, hmarked, hended, finish]
  · rw [hdone.markers_eq, exits]
  · rw [exits] at hagrees hfilled
    change _ ∧ _
    rw [← hended, ← hmarked]
    obtain ⟨hholes, hfilledEnds⟩ := (hagrees.unmarked hdone).unpatched hclose (by grind [Between])
      (arms.ends_not_mem_exits draft.here)
    obtain ⟨hbefore, hlast⟩ := hholes.split (arms.ends draft.here ++ arms.exits draft.here) []
      (hdrop.grown hgrown.sane) hgrown.here_le (by grind) (by grind [Between])
    rw [← hopened] at hbefore hfilled hfilledEnds
    refine ⟨hopened ▸ harms.code hreaches hout hwhole.sane.end_le hbefore hfilled hfilledEnds, ?_⟩
    exact @Chunk.opAt _ _ _ _ (.data (.shuffle .drop)) hdrop hgrown.sane hlast trivial

end Structures

/-! ### Programs -/

/-- A draft inside some counted loops, with room for code that ends at `last` and has up to `peak` markers. -/
structure Ready (room : Prop) (depth last peak : Nat) (draft : Draft) : Prop where
  sane : draft.Sane
  inLoop : 0 < depth → InLoop draft.markers
  code : room → last ≤ draft.names
  markers : room → draft.markers.length + peak ≤ maxMarkers

namespace Ready

variable {room : Prop} {depth deeper last sooner peak fewer : Nat} {draft next : Draft} {values : List Cell}
  {marker : Marker} {markers : List Marker} {resolve : String → Option Nat}

variable (hready : Ready room depth last peak draft)

include hready

theorem opened (hchunk : Chunk values (marker :: draft.markers) draft next)
    (hlast : sooner ≤ last) (hpeak : 1 + fewer ≤ peak) : Ready room depth sooner fewer next := by
  refine ⟨(hchunk.grown hready.sane).sane, fun hdepth => ?_, fun hreally => ?_, fun hreally => ?_⟩
  · rw [hchunk.markers_eq]
    exact (hready.inLoop hdepth).cons
  · rw [hchunk.names_eq]
    exact Nat.le_trans hlast (hready.code hreally)
  · have hroom := hready.markers hreally
    rw [hchunk.markers_eq, length_cons]
    omega

theorem looped {other third : Marker}
    (hchunk : Chunk values (marker :: other :: third :: draft.markers) draft next) (hback : marker.tag = .doBack)
    (hlast : sooner ≤ last) (hpeak : 3 + fewer ≤ peak) : Ready room deeper sooner fewer next := by
  refine ⟨(hchunk.grown hready.sane).sane, fun _ => ?_, fun hreally => ?_, fun hreally => ?_⟩
  · rw [hchunk.markers_eq]
    exact ⟨marker, mem_cons_self, hback⟩
  · rw [hchunk.names_eq]
    exact Nat.le_trans hlast (hready.code hreally)
  · have hroom := hready.markers hreally
    rw [hchunk.markers_eq]
    simp only [length_cons]
    omega

theorem laid {prog : Prog} (hlaid : prog.Laid resolve draft next)
    (hlast : sooner ≤ last) (hpeak : prog.leaves + fewer ≤ peak) : Ready room depth sooner fewer next := by
  have hlen := prog.length_exits draft.here
  have hfiled := length_file_le (prog.exits draft.here) draft.markers
  refine ⟨hlaid.grown.sane, fun hdepth => ?_, fun hreally => ?_, fun hreally => ?_⟩
  · rw [hlaid.markers_eq]
    exact (hready.inLoop hdepth).file
  · rw [hlaid.grown.names_eq]
    exact Nat.le_trans hlast (hready.code hreally)
  · have hroom := hready.markers hreally
    rw [hlaid.markers_eq]
    omega

theorem divided {place : Nat} {older : Marker}
    (hdivided : Divided place (marker :: markers) draft next) (hmarks : draft.markers = older :: markers)
    (htag : older.tag ≠ .doBack) (hlast : sooner ≤ last) (hpeak : fewer ≤ peak) :
    Ready room depth sooner fewer next := by
  refine ⟨hdivided.sane hready.sane, fun hdepth => ?_, fun hreally => ?_, fun hreally => ?_⟩
  · obtain ⟨back, hback, hdoBack⟩ := hready.inLoop hdepth
    rw [hmarks] at hback
    rw [hdivided.markers_eq]
    rcases List.mem_cons.1 hback with rfl | hbelow
    · exact (htag hdoBack).elim
    · exact ⟨back, mem_cons_of_mem _ hbelow, hdoBack⟩
  · rw [hdivided.names_eq]
    exact Nat.le_trans hlast (hready.code hreally)
  · have hroom := hready.markers hreally
    rw [hmarks] at hroom
    rw [hdivided.markers_eq]
    simp only [length_cons] at hroom ⊢
    omega

end Ready

section Compiling

variable {resolve : String → Option Nat} {vocabulary : Vocabulary} {draft : Draft} {room : Prop}

theorem does_data (word : DataWord) (hroom : room → draft.here + 4 ≤ draft.names) :
    Does room ((Piece.word word.prim).draft resolve draft)
      (Chunk [Cell.ofNat (Op.data word).token] draft.markers draft) := by
  cases word with
  | shuffle word => exact does_emit _ hroom
  | cell word => exact does_emit _ hroom
  | double word => exact does_emit _ hroom

variable {depth : Nat}

theorem does_leave (hdepth : 0 < depth) (hready : Ready room depth (Prog.leave.finish draft.here) 1 draft) :
    Does room draft.leaveLoop (Prog.leave.Laid resolve draft) := by
  have hcode : room → draft.here + 12 ≤ draft.names := hready.code
  refine (does_emit _ fun hreally => ?_).bind fun unlooped hunlooped => ?_
  · have := hcode hreally
    omega
  have hhere : unlooped.here = draft.here + 4 := hunlooped.here_eq
  refine (does_emitBranch .branch fun hreally => ?_).bind fun branched hbranched => ?_
  · have := hcode hreally
    rw [hunlooped.names_eq]
    omega
  have hmarks : branched.markers = draft.markers := hbranched.markers_eq.trans hunlooped.markers_eq
  refine (does_fileLeave (unlooped.here + 4) (hmarks ▸ hready.inLoop hdepth)
    (hmarks ▸ hready.markers)).mono fun next hnext => ?_
  exact laid_leave hready.sane hunlooped hbranched (hmarks ▸ hnext)

/-- A loop that ends with a branch back, once its body can be laid down. -/
theorem does_back {prog body : Prog} {closer : ControlWord} {jump : ThreadWord} (op : Op)
    (hready : Ready room depth (body.finish draft.here + 8) (1 + body.peak) draft)
    (hbody : ∀ {opened : Draft}, Ready room depth (body.finish opened.here) body.peak opened →
      Does room (lay resolve body.pieces opened) (body.Laid resolve opened))
    (hcloser : closer.draft = branchBack jump [.begin])
    (htoken : op.token = (Prim.thread jump).token) (hoperands : ∀ place, op.operands place = [distance draft.here place])
    (hsound : ∀ cells : Nat → Cell, op.Sound cells) (hfin : prog.finish draft.here = body.finish draft.here + 8)
    (hexits : prog.exits draft.here = body.exits draft.here)
    (hcode : ∀ {cells : Nat → Cell} {out : Nat}, body.CodeAt cells resolve draft.here out →
      OpAt cells (body.finish draft.here) op → prog.CodeAt cells resolve draft.here out) :
    Does room (lay resolve ([.control .begin] ++ body.pieces ++ [.control closer]) draft) (prog.Laid resolve draft) := by
  rw [append_assoc]
  refine Does.cons (does_mark _ fun hreally => ?_) fun opened hopened => ?_
  · have := hready.markers hreally
    omega
  have hhere : opened.here = draft.here := hopened.here_eq
  refine (hbody (hready.opened hopened (by rw [hhere]; omega) (Nat.le_refl _))).append fun ended hended => ?_
  have hmarks := hended.markers_eq
  rw [hopened.markers_eq, file_cons_of_ne (by simp), hhere] at hmarks
  have hback := @does_branchBack _ _ _ [.begin] jump _ (take_head hmarks rfl)
    fun (hreally : room) => by
      have := hready.code hreally
      rw [hended.here_eq, hended.grown.names_eq, hopened.names_eq, hhere]
      exact this
  rw [← hcloser] at hback
  refine (Does.last hback).mono fun next hnext => ?_
  rw [← htoken, ← hoperands] at hnext
  refine laid_back hready.sane hopened hended hnext ?_ hsound hfin hexits hcode
  rw [Op.size, hoperands]
  rfl

mutual

/-- The words of a program lay its code down. -/
theorem Prog.does_lay (hknown : ∀ name, vocabulary.knows name = true → (resolve name).isSome = true) :
    ∀ (prog : Prog) (depth : Nat) {draft : Draft}, prog.isValid vocabulary depth = true →
      Ready room depth (prog.finish draft.here) prog.peak draft →
        Does room (lay resolve prog.pieces draft) (prog.Laid resolve draft)
  | .skip, _, draft, _, hready => by
    refine ⟨⟨hready.sane, Nat.le_refl _, rfl, fun _ _ => rfl⟩, rfl, ?_, fun _ _ _ _ => trivial⟩
    rw [exits, file_nil]
  | .literal value, _, draft, _, hready => by
    refine (Does.last (does_number value hready.code)).mono fun next hnext => ?_
    exact laid_op hready.sane hnext rfl rfl fun _ hop => hop trivial
  | .data word, _, draft, _, hready => by
    refine (Does.last (does_data word hready.code)).mono fun next hnext => ?_
    exact @laid_op _ _ _ _ (.data word) hready.sane hnext rfl rfl fun _ hop => hop trivial
  | .index outer, _, draft, _, hready => by
    refine (Does.last (does_emit _ hready.code)).mono fun next hnext => ?_
    exact @laid_op _ _ _ _ (.index outer) hready.sane hnext rfl rfl fun _ hop => hop trivial
  | .call name, _, draft, hvalid, hready => by
    obtain ⟨token, htoken⟩ := Option.isSome_iff_exists.1 (hknown name hvalid)
    have hemit : (Piece.call name).draft resolve draft = draft.emit (Cell.ofNat token) := by
      rw [Piece.draft, htoken]
      rfl
    refine (Does.last (hemit ▸ does_emit _ hready.code)).mono fun next hnext => ?_
    exact @laid_op _ _ _ _ (.call token) hready.sane hnext rfl rfl fun hreaches hop =>
      ⟨token, htoken, hop (hreaches name token htoken)⟩
  | .seq first second, depth, draft, hvalid, hready => by
    have ⟨hfst, hsnd⟩ := Bool.and_eq_true_iff.1 hvalid
    have hlater := (second.between_exits (first.finish draft.here)).1
    simp only [finish, Prog.peak] at hready
    refine (first.does_lay hknown depth hfst ?_).append fun middle hmid => ?_
    · exact ⟨hready.sane, hready.inLoop, fun hreally => Nat.le_trans hlater (hready.code hreally),
        fun hreally => by have := hready.markers hreally; omega⟩
    refine (second.does_lay hknown depth hsnd (hready.laid hmid ?_ (by omega))).mono
      fun next hnext => laid_seq hmid hnext
    exact Nat.le_of_eq (by rw [hmid.here_eq])
  | .ifThen body, depth, draft, hvalid, hready => by
    have hlater := (body.between_exits (draft.here + 8)).1
    simp only [finish, Prog.peak] at hready
    rw [Prog.pieces, append_assoc]
    refine Does.cons (does_branchForward .zeroBranch .if_ (fun hreally => ?_) (fun hreally => ?_))
      fun opened hopened => ?_
    · exact Nat.le_trans hlater (hready.code hreally)
    · have := hready.markers hreally
      omega
    have hhere : opened.here = draft.here + 8 := hopened.here_eq
    refine (body.does_lay hknown depth hvalid
      (hready.opened hopened (Nat.le_of_eq (by rw [hhere])) (Nat.le_refl _))).append fun ended hended => ?_
    have hmarks := hended.markers_eq
    rw [hopened.markers_eq, file_cons_of_ne (by simp)] at hmarks
    exact (Does.last (does_resolveForward hmarks rfl)).mono fun next hnext =>
      laid_ifThen hready.sane hopened hended hnext
  | .ifElse body other, depth, draft, hvalid, hready => by
    have ⟨hbody, hother⟩ := Bool.and_eq_true_iff.1 hvalid
    have hlater := (body.between_exits (draft.here + 8)).1
    have hlast := (other.between_exits (body.finish (draft.here + 8) + 8)).1
    simp only [finish, Prog.peak] at hready
    simp only [Prog.pieces, append_assoc]
    refine Does.cons (does_branchForward .zeroBranch .if_ (fun hreally => ?_) (fun hreally => ?_))
      fun opened hopened => ?_
    · have := hready.code hreally
      omega
    · have := hready.markers hreally
      omega
    have hhere : opened.here = draft.here + 8 := hopened.here_eq
    have hins := hready.opened hopened (Nat.le_refl _) (Nat.le_refl _)
    refine (body.does_lay hknown depth hbody
      (hready.opened hopened (by rw [hhere]; omega) (by omega))).append fun middle hmid => ?_
    have hmarks := hmid.markers_eq
    rw [hopened.markers_eq, file_cons_of_ne (by simp)] at hmarks
    have hthere := hmid.here_eq
    rw [hhere] at hthere
    have hlaid : Ready room depth _ other.peak middle := hins.laid hmid (Nat.le_refl _) (by omega)
    refine Does.cons (does_divide .else_ hmarks rfl (fun hreally => ?_) (fun hreally => ?_))
      fun divided hdivided => ?_
    · have := hlaid.code hreally
      omega
    · have := hlaid.markers hreally
      omega
    have hdone := hdivided.here_eq
    refine (other.does_lay hknown depth hother
      (hlaid.divided hdivided hmarks (by simp) (Nat.le_of_eq (by rw [hdone, hthere])) (Nat.le_refl _))).append
      fun ended hended => ?_
    have hclosing := hended.markers_eq
    rw [hdivided.markers_eq, file_cons_of_ne (by simp)] at hclosing
    exact (Does.last (does_resolveForward hclosing rfl)).mono fun next hnext =>
      laid_ifElse hready.sane hopened hmid hdivided hended hnext
  | .untilLoop body, depth, draft, hvalid, hready =>
    does_back (.jumpIfZero draft.here) hready (body.does_lay hknown depth hvalid) rfl rfl (fun _ => rfl)
      (fun _ => hready.sane.end_le) rfl rfl fun hcode hop => ⟨hcode, hop⟩
  | .againLoop body, depth, draft, hvalid, hready =>
    does_back (.jump draft.here) hready (body.does_lay hknown depth hvalid) rfl rfl (fun _ => rfl)
      (fun _ => hready.sane.end_le) rfl rfl fun hcode hop => ⟨hcode, hop⟩
  | .whileLoop test body, depth, draft, hvalid, hready => by
    have ⟨htest, hbody⟩ := Bool.and_eq_true_iff.1 hvalid
    have hlater := (test.between_exits draft.here).1
    have hlast := (body.between_exits (test.finish draft.here + 8)).1
    simp only [finish, Prog.peak] at hready
    simp only [Prog.pieces, append_assoc]
    refine Does.cons (does_mark _ fun hreally => ?_) fun opened hopened => ?_
    · have := hready.markers hreally
      omega
    have hhere : opened.here = draft.here := hopened.here_eq
    have hins := hready.opened hopened (Nat.le_refl _) (Nat.le_refl _)
    refine (test.does_lay hknown depth htest
      (hready.opened hopened (by rw [hhere]; omega) (by omega))).append fun middle hmid => ?_
    have hthere := hmid.here_eq
    rw [hhere] at hthere
    have htested : Ready room depth _ (1 + body.peak) middle := hins.laid hmid (Nat.le_refl _) (by omega)
    refine Does.cons (does_branchForward .zeroBranch .while_ (fun hreally => ?_) (fun hreally => ?_))
      fun divided hdivided => ?_
    · have := htested.code hreally
      omega
    · have := htested.markers hreally
      omega
    have hdone : divided.here = middle.here + 8 := hdivided.here_eq
    have hbranched := htested.opened hdivided (Nat.le_refl _) (Nat.le_refl _)
    refine (body.does_lay hknown depth hbody
      (htested.opened hdivided (by rw [hdone, hthere]; omega) (Nat.le_refl _))).append fun ended hended => ?_
    have hmarks := hended.markers_eq
    rw [hdivided.markers_eq, hmid.markers_eq, hopened.markers_eq, file_cons_of_ne (by simp),
      file_cons_of_ne (by simp), file_cons_of_ne (by simp), hhere] at hmarks
    refine (Does.last (Does.bind (does_branchBack .branch (take_pastWhile hmarks rfl rfl)
      fun hreally => ?_) fun marked hmarked => ?_))
    · have := hbranched.code hreally
      rw [hended.here_eq, hended.grown.names_eq, hdone, hthere]
      exact this
    exact (does_resolveForward hmarked.markers_eq rfl).mono fun next hnext =>
      laid_whileLoop hready.sane hopened hmid hdivided hended hmarked hnext
  | .counted maySkip stepped body, depth, draft, hvalid, hready => by
    have hlater := (body.between_exits (draft.here + 8)).1
    simp only [finish, Prog.peak] at hready
    simp only [Prog.pieces, append_assoc]
    have hopening : (Piece.control (if maySkip then .questionDo else .do_)).draft resolve draft =
        draft.openLoop (if maySkip then .enterQuestionDo else .enterDo) := by
      cases maySkip <;> rfl
    have hclosing (ended : Draft) : (Piece.control (if stepped then .plusLoop else .loop)).draft resolve ended =
        ended.closeLoop (if stepped then .stepPlusLoop else .stepLoop) := by
      cases stepped <;> rfl
    have hopens := @does_openLoop draft room (if maySkip then .enterQuestionDo else .enterDo)
      (fun hreally => by have := hready.code hreally; omega)
      (fun hreally => by have := hready.markers hreally; omega)
    rw [← hopening] at hopens
    refine Does.cons hopens fun opened hopened => ?_
    have hhere : opened.here = draft.here + 8 := hopened.here_eq
    refine (body.does_lay hknown (depth + 1) hvalid
      (hready.looped hopened rfl (by rw [hhere]; omega) (Nat.le_refl _))).append fun ended hended => ?_
    have hmarks := hended.markers_eq
    rw [hopened.markers_eq, file_cons_of_back rfl] at hmarks
    have hcloses := does_closeLoop (if stepped then .stepPlusLoop else .stepLoop) hmarks
      fun (hreally : room) => by
        have := hready.code hreally
        rw [hended.here_eq, hended.grown.names_eq, hopened.names_eq, hhere]
        exact this
    rw [← hclosing] at hcloses
    refine (Does.last hcloses).mono fun next hnext => ?_
    obtain ⟨marked, closed, _, _, hmarked, hclosed, hnext⟩ := hnext
    exact laid_counted hready.sane hopened hended hmarked hclosed hnext
  | .leave, depth, draft, hvalid, hready => Does.last (does_leave (of_decide_eq_true hvalid) hready)
  | .case_ arms, depth, draft, hvalid, hready => by
    simp only [finish, Prog.peak] at hready
    simp only [Prog.pieces, append_assoc]
    refine Does.cons (does_mark _ fun hreally => ?_) fun opened hopened => ?_
    · have := hready.markers hreally
      omega
    have hhere : opened.here = draft.here := hopened.here_eq
    refine (arms.does_lay hknown depth hvalid
      (hready.opened hopened (by rw [hhere]; omega) (Nat.le_refl _))).append fun ended hended => ?_
    have hmarks := hended.markers_eq
    rw [hopened.markers_eq, file_cons_of_ne (by simp), hhere] at hmarks
    refine Does.last (Does.bind (does_emit _ fun hreally => ?_) fun dropped hdropped => ?_)
    · have := hready.code hreally
      rw [hended.here_eq, hended.grown.names_eq, hopened.names_eq, hhere]
      exact this
    have hresolved := patched_resolveRun .endOf _ (hdropped.markers_eq.trans hmarks) (by simp)
    exact (does_closeMarker hresolved.markers_eq rfl).mono fun next hnext =>
      laid_case hready.sane hopened hended hdropped hresolved hnext

theorem Arms.does_lay (hknown : ∀ name, vocabulary.knows name = true → (resolve name).isSome = true) :
    ∀ (arms : Arms) (depth : Nat) {draft : Draft}, arms.isValid vocabulary depth = true →
      Ready room depth (arms.finish draft.here) arms.peak draft →
        Does room (lay resolve arms.pieces draft) (arms.Laid resolve draft)
  | .otherwise body, depth, draft, hvalid, hready =>
    (body.does_lay hknown depth hvalid hready).mono fun _ hnext => laid_otherwise hnext
  | .clause test body rest, depth, draft, hvalid, hready => by
    have ⟨hboth, hrest⟩ := Bool.and_eq_true_iff.1 hvalid
    have ⟨htest, hbody⟩ := Bool.and_eq_true_iff.1 hboth
    have hlater := (test.between_exits draft.here).1
    have hlater' := (body.between_exits (test.finish draft.here + 8)).1
    have hlast := (rest.between_exits (body.finish (test.finish draft.here + 8) + 8)).1
    simp only [Arms.finish, Arms.peak] at hready
    simp only [Arms.pieces, append_assoc]
    refine (test.does_lay hknown depth htest ⟨hready.sane, hready.inLoop, fun hreally => ?_, fun hreally => ?_⟩).append
      fun middle hmid => ?_
    · have := hready.code hreally
      omega
    · have := hready.markers hreally
      omega
    have hthere := hmid.here_eq
    have htested : Ready room depth _ (1 + max body.peak (body.leaves + rest.peak)) middle :=
      hready.laid hmid (Nat.le_refl _) (by omega)
    refine Does.cons (does_branchForward .testOf .of_ (fun hreally => ?_) (fun hreally => ?_))
      fun opened hopened => ?_
    · have := htested.code hreally
      omega
    · have := htested.markers hreally
      omega
    have hhere : opened.here = middle.here + 8 := hopened.here_eq
    have hins := htested.opened hopened (Nat.le_refl _) (Nat.le_refl _)
    refine (body.does_lay hknown depth hbody
      (htested.opened hopened (by rw [hhere, hthere]; omega) (by omega))).append fun ended hended => ?_
    have hmarks := hended.markers_eq
    rw [hopened.markers_eq, file_cons_of_ne (by simp)] at hmarks
    have hfin := hended.here_eq
    rw [hhere, hthere] at hfin
    have hlaid : Ready room depth _ rest.peak ended := hins.laid hended (Nat.le_refl _) (by omega)
    refine Does.cons (does_divide .endOf hmarks rfl (fun hreally => ?_) (fun hreally => ?_))
      fun divided hdivided => ?_
    · have := hlaid.code hreally
      omega
    · have := hlaid.markers hreally
      omega
    have hdone := hdivided.here_eq
    refine (rest.does_lay hknown depth hrest (hlaid.divided hdivided hmarks (by simp)
      (Nat.le_of_eq (by rw [hdone, hfin])) (Nat.le_refl _))).mono fun next hnext => ?_
    rw [hmid.markers_eq] at hdivided
    exact laid_clause hmid hopened hended hdivided hnext

end

end Compiling

end ThreadedForth
