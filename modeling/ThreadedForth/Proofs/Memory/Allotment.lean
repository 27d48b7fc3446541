import ThreadedForth.Proofs.Memory.Frame

/-!
# Regions handed out from both ends

After any calls that ask for regions, from the bottom or from the top and of any sizes, the regions
handed out and the free one between them are a tiling of memory: they share no byte and leave none
out. A call takes its region off one end of the free one, so it splits one tile into two; a call
that asks for more than is free changes nothing.
-/

namespace ThreadedForth

open List

namespace Memory

/-- A call for a region of so many bytes. -/
inductive Demand where
  | low (size : Nat)
  | high (size : Nat)

namespace Demand

def size : Demand → Nat
  | low size => size
  | high size => size

def perform : Demand → MemoryM Nat
  | low size => allotLow size
  | high size => allotHigh size

/-- The region that the answer `start` hands out. -/
def region (demand : Demand) (start : Nat) : Region := ⟨start, start + aligned demand.size⟩

/-- Where the region starts that the call is granted. -/
def start (memory : Memory) : Demand → Nat
  | low _ => memory.low
  | high size => memory.high - aligned size

/-- The memory that is left once the call is granted: one cursor has moved. -/
def granted (memory : Memory) : Demand → Memory
  | low size => { memory with low := memory.low + aligned size }
  | high size => { memory with high := memory.high - aligned size }

theorem perform_eq (demand : Demand) (memory : Memory) :
    demand.perform memory =
      if memory.high - memory.low < aligned demand.size then .error .memoryOverflow memory
      else .ok (demand.start memory) (demand.granted memory) := by
  cases demand <;> rfl

end Demand

/-- Memory, and the regions handed out so far, latest first. -/
structure Ledger where
  memory : Memory
  taken : List Region

namespace Ledger

/-- The ledger after a call. A call that fails hands out nothing. -/
def serve (ledger : Ledger) (demand : Demand) : Ledger :=
  match demand.perform ledger.memory with
  | .ok start after => ⟨after, demand.region start :: ledger.taken⟩
  | .error _ after => ⟨after, ledger.taken⟩

/-- The ledger of a fresh memory. -/
def ofSize (size : Nat) : Ledger := ⟨Memory.ofSize size, []⟩

/-- The ledger after some calls on a fresh memory. -/
def ofDemands (size : Nat) (demands : List Demand) : Ledger := demands.foldl serve (ofSize size)

/-- The free region and those handed out. -/
def regions (ledger : Ledger) : List Region :=
  ⟨ledger.memory.freeRegion.1, ledger.memory.freeRegion.2⟩ :: ledger.taken

end Ledger

/-- Regions that share no byte and together are the first `size` bytes, each a whole number of cells
from a cell boundary on. -/
structure Tiling (size : Nat) (regions : List Region) : Prop where
  disjoint : regions.Pairwise fun region other => ∀ address, region.Holds address → ¬ other.Holds address
  bounds : ∀ region ∈ regions, region.start ≤ region.finish ∧ region.finish ≤ size ∧
    region.start % 4 = 0 ∧ region.finish % 4 = 0
  covers : ∀ address, address < size ↔ ∃ region ∈ regions, region.Holds address

namespace Tiling

variable {size start middle finish : Nat} {first second : Region} {taken : List Region}

theorem swap (h : Tiling size (first :: second :: taken)) : Tiling size (second :: first :: taken) where
  disjoint := by
    have hpairs := h.disjoint
    simp only [pairwise_cons, forall_mem_cons] at hpairs ⊢
    obtain ⟨⟨hpair, hfirst⟩, hsecond, htaken⟩ := hpairs
    exact ⟨⟨fun addr hin hother => hpair addr hother hin, hsecond⟩, hfirst, htaken⟩
  bounds := by
    have hbounds := h.bounds
    simp only [forall_mem_cons] at hbounds ⊢
    exact and_left_comm.1 hbounds
  covers addr := by
    rw [h.covers addr]
    simp only [mem_cons, exists_eq_or_imp]
    exact or_left_comm

/-- A tile cut at a cell boundary gives two. -/
theorem split (h : Tiling size (⟨start, finish⟩ :: taken)) (hlow : start ≤ middle)
    (hhigh : middle ≤ finish) (hmiddle : middle % 4 = 0) :
    Tiling size (⟨start, middle⟩ :: ⟨middle, finish⟩ :: taken) where
  disjoint := by
    obtain ⟨hfree, htaken⟩ := pairwise_cons.1 h.disjoint
    simp only [pairwise_cons, forall_mem_cons, Region.holds_mk] at hfree ⊢
    refine ⟨⟨fun addr hin hother => by omega, fun region hregion addr hin => ?_⟩,
      fun region hregion addr hin => ?_, htaken⟩
    · exact hfree region hregion addr ⟨hin.1, by omega⟩
    · exact hfree region hregion addr ⟨by omega, hin.2⟩
  bounds := by
    have hbounds := h.bounds
    simp only [forall_mem_cons] at hbounds ⊢
    obtain ⟨⟨_, hsize, hstart, hfinish⟩, htaken⟩ := hbounds
    exact ⟨⟨hlow, by omega, hstart, hmiddle⟩, ⟨hhigh, hsize, hmiddle, hfinish⟩, htaken⟩
  covers addr := by
    rw [h.covers addr]
    simp only [mem_cons, exists_eq_or_imp, Region.holds_mk]
    rw [← or_assoc]
    apply or_congr_left
    omega

end Tiling

namespace Ledger

/-- A call that is granted cuts the free region in two. -/
theorem tiling_serve {ledger : Ledger} (demand : Demand) (h : Tiling ledger.memory.size ledger.regions) :
    (ledger.serve demand).memory.size = ledger.memory.size ∧
      Tiling ledger.memory.size (ledger.serve demand).regions := by
  obtain ⟨horder, -, hlow, hhigh⟩ : ledger.memory.low ≤ ledger.memory.high ∧ _ ∧
    ledger.memory.low % 4 = 0 ∧ ledger.memory.high % 4 = 0 := h.bounds _ mem_cons_self
  have hround := aligned_mod demand.size
  rw [serve, Demand.perform_eq]
  by_cases hroom : ledger.memory.high - ledger.memory.low < aligned demand.size
  · rw [if_pos hroom]
    exact ⟨rfl, h⟩
  · rw [if_neg hroom]
    cases demand with
    | low size =>
      change ¬ _ < aligned size at hroom
      change aligned size % 4 = 0 at hround
      have hcut := h.split (Nat.le_add_right _ _)
        (show ledger.memory.low + aligned size ≤ ledger.memory.high by omega)
        (show (ledger.memory.low + aligned size) % 4 = 0 by omega)
      exact ⟨rfl, hcut.swap⟩
    | high size =>
      change ¬ _ < aligned size at hroom
      change aligned size % 4 = 0 at hround
      have hcut := h.split (show ledger.memory.low ≤ ledger.memory.high - aligned size by omega)
        (Nat.sub_le _ _) (by omega)
      have hfinish : ledger.memory.high - aligned size + aligned size = ledger.memory.high :=
        Nat.sub_add_cancel (by omega)
      refine ⟨rfl, ?_⟩
      change Tiling _ (_ :: ⟨_, ledger.memory.high - aligned size + aligned size⟩ :: _)
      rwa [hfinish]

theorem tiling_foldl (demands : List Demand) {ledger : Ledger} (h : Tiling ledger.memory.size ledger.regions) :
    (demands.foldl serve ledger).memory.size = ledger.memory.size ∧
      Tiling ledger.memory.size (demands.foldl serve ledger).regions := by
  induction demands generalizing ledger with
  | nil => exact ⟨rfl, h⟩
  | cons demand later ih =>
    obtain ⟨hsize, htiling⟩ := tiling_serve demand h
    rw [← hsize] at htiling ⊢
    exact ih htiling

theorem size_ofSize (size : Nat) : (ofSize size).memory.size = size / 4 * 4 :=
  Array.size_replicate

theorem tiling_ofSize (size : Nat) : Tiling (ofSize size).memory.size (ofSize size).regions := by
  rw [size_ofSize]
  refine ⟨pairwise_singleton _ _, ?_, ?_⟩
  · rw [regions, ofSize, forall_mem_singleton]
    change 0 ≤ size / 4 * 4 ∧ size / 4 * 4 ≤ size / 4 * 4 ∧ 0 % 4 = 0 ∧ size / 4 * 4 % 4 = 0
    omega
  · simp [regions, freeRegion, ofSize, Memory.ofSize]

end Ledger

/-- After any calls on a fresh memory the cursors are in order, inside memory and on cell boundaries,
and the free region tiles memory with the regions handed out. The next call is refused, and then
changes nothing, exactly if it asks for more than is free. -/
theorem allotments_tile_memory (size : Nat) (demands : List Demand) :
    let ledger := Ledger.ofDemands size demands
    let memory := ledger.memory
    (memory.low ≤ memory.high ∧ memory.high ≤ memory.size ∧ memory.low % 4 = 0 ∧ memory.high % 4 = 0) ∧
    memory.size = size / 4 * 4 ∧
    Tiling memory.size (⟨memory.freeRegion.1, memory.freeRegion.2⟩ :: ledger.taken) ∧
    ∀ demand : Demand,
      ((∃ fault after, demand.perform memory = .error fault after) ↔
        memory.high - memory.low < aligned demand.size) ∧
      (∀ fault after, demand.perform memory = .error fault after →
        fault = .memoryOverflow ∧ after = memory ∧ Ledger.ofDemands size (demands ++ [demand]) = ledger) ∧
      ∀ start after, demand.perform memory = .ok start after →
        after.bytes = memory.bytes ∧ Ledger.ofDemands size (demands ++ [demand]) =
          ⟨after, ⟨start, start + aligned demand.size⟩ :: ledger.taken⟩ := by
  intro ledger memory
  obtain ⟨hsize, htiling⟩ := Ledger.tiling_foldl demands (Ledger.tiling_ofSize size)
  rw [← hsize] at htiling
  refine ⟨htiling.bounds _ List.mem_cons_self, hsize.trans (Ledger.size_ofSize size), htiling, fun demand => ?_⟩
  have hnext : Ledger.ofDemands size (demands ++ [demand]) = ledger.serve demand := by
    rw [Ledger.ofDemands, List.foldl_append]
    rfl
  have hperform := demand.perform_eq memory
  rw [hnext, Ledger.serve]
  by_cases hroom : memory.high - memory.low < aligned demand.size
  · rw [if_pos hroom] at hperform
    rw [hperform]
    refine ⟨⟨fun _ => hroom, fun _ => ⟨_, _, rfl⟩⟩, fun fault after herror => ?_, fun start after hok => by cases hok⟩
    cases herror
    exact ⟨rfl, rfl, rfl⟩
  · rw [if_neg hroom] at hperform
    rw [hperform]
    refine ⟨⟨?_, fun hless => absurd hless hroom⟩, fun fault after herror => (by cases herror), fun start after hok => ?_⟩
    · rintro ⟨fault, after, herror⟩
      cases herror
    · cases hok
      refine ⟨?_, rfl⟩
      cases demand <;> rfl

end Memory

end ThreadedForth
