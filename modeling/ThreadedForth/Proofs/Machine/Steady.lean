import ThreadedForth.Proofs.Machine.Lockstep

/-!
# The bounds are kept

Every word keeps the bounds of the machine, and so does what the interpreter does to set a source aside and to take it
up again.
-/

namespace ThreadedForth

open Machine (Bounded)

theorem Machine.Bounded.alike {m other : Machine} (halike : m.Alike other) (hb : m.Bounded) : other.Bounded := by
  obtain ⟨hmem, hdata, hret, hctl, hdict, _, _⟩ := halike
  constructor
  · rw [hmem]
    exact hb.size_eq
  · rw [hdata]
    exact hb.data
  · rw [hret]
    exact hb.returns
  · rw [hctl]
    exact hb.control
  · rw [hctl]
    exact hb.paired
  · rw [hdict]
    exact hb.dictionary

instance : Lasting (Diagonal Bounded) where
  update hchange := WordM.keeps_update fun m => Bounded.alike (hchange m [] [] #[]).1
  push _ := inferInstance
  pop := inferInstance
  pushDouble _ := inferInstance
  popDouble := inferInstance
  rollUp _ := inferInstance
  clear := WordM.keeps_update fun _ hb => hb.withData hb.data.clear
  pushReturn _ := inferInstance
  popReturn := inferInstance
  pokeReturn _ _ := inferInstance
  setUser _ _ := inferInstanceAs (Keeps _ (WordM.onMemory _))
  fillInput _ := inferInstance
  fillPad _ _ _ := inferInstance
  fillNumber _ := inferInstance
  comma _ := inferInstance
  commaByte _ := inferInstance
  align := inferInstance
  onMemory _ hstep :=
    have := hstep
    inferInstance
  pushMarker _ := inferInstance
  popMarker := inferInstance
  create name flags code := WordM.keeps_create name flags code
  createNameless _ := inferInstance
  allot _ := inferInstance

namespace WordM

instance : Keeps Bounded suspendSource := by
  have (toIn : Cell) : Keeps Bounded (update fun m =>
      { m with suspended := ⟨m.source, toIn⟩ :: m.suspended }) :=
    keeps_update fun _ hb => { hb with }
  unfold suspendSource
  infer_instance

instance : Keeps Bounded resumeSource := by
  refine .of fun m hb => ?_
  cases hsusp : m.suspended with
  | nil =>
    simp only [stateAfter, resumeSource, hsusp]
    exact hb
  | cons first rest =>
    have hresumed : Machine.Bounded { m with source := first.source, suspended := rest } :=
      { hb with }
    simp only [stateAfter, resumeSource, hsusp]
    exact (inferInstance : Keeps Bounded (writeCell Layout.toIn first.toIn)).keeps _ hresumed

end WordM

end ThreadedForth
