
import ThreadedForth.Proofs.Structured.Simulation

/-!
# Exits

A branch out of a loop is laid down before the end of the loop is known. Here is where the offset cells of
such branches stand in the code of a program, and how many structures are open while it is compiled.
-/

namespace ThreadedForth

open List Prog

mutual

/-- The offset cells of the branches that leave the loop around a program, newest first. -/
def Prog.exits : Prog → Nat → List Nat
  | .skip, _ => []
  | .literal _, _ => []
  | .data _, _ => []
  | .index _, _ => []
  | .call _, _ => []
  | .seq first second, address => second.exits (first.finish address) ++ first.exits address
  | .ifThen body, address => body.exits (address + 8)
  | .ifElse body other, address =>
    other.exits (body.finish (address + 8) + 8) ++ body.exits (address + 8)
  | .untilLoop body, address => body.exits address
  | .againLoop body, address => body.exits address
  | .whileLoop test body, address => body.exits (test.finish address + 8) ++ test.exits address
  | .counted _ _ _, _ => []
  | .leave, address => [address + 8]
  | .case_ arms, address => arms.exits address

def Arms.exits : Arms → Nat → List Nat
  | .otherwise body, address => body.exits address
  | .clause test body rest, address =>
    let middle := test.finish address + 8
    rest.exits (body.finish middle + 8) ++ (body.exits middle ++ test.exits address)

end

/-- The offset cells of the branches at the ends of the clauses, newest first. -/
def Arms.ends : Arms → Nat → List Nat
  | .otherwise _, _ => []
  | .clause test body rest, address =>
    let last := body.finish (test.finish address + 8)
    rest.ends (last + 8) ++ [last + 4]

mutual

/-- The number of exits. -/
def Prog.leaves : Prog → Nat
  | .skip => 0
  | .literal _ => 0
  | .data _ => 0
  | .index _ => 0
  | .call _ => 0
  | .seq first second => first.leaves + second.leaves
  | .ifThen body => body.leaves
  | .ifElse body other => body.leaves + other.leaves
  | .untilLoop body => body.leaves
  | .againLoop body => body.leaves
  | .whileLoop test body => test.leaves + body.leaves
  | .counted _ _ _ => 0
  | .leave => 1
  | .case_ arms => arms.leaves

def Arms.leaves : Arms → Nat
  | .otherwise body => body.leaves
  | .clause test body rest => test.leaves + body.leaves + rest.leaves

end

mutual

/-- The most markers that a program has open at once. -/
def Prog.peak : Prog → Nat
  | .skip => 0
  | .literal _ => 0
  | .data _ => 0
  | .index _ => 0
  | .call _ => 0
  | .seq first second => max first.peak (first.leaves + second.peak)
  | .ifThen body => 1 + body.peak
  | .ifElse body other => 1 + max body.peak (body.leaves + other.peak)
  | .untilLoop body => 1 + body.peak
  | .againLoop body => 1 + body.peak
  | .whileLoop test body => 1 + max test.peak (test.leaves + 1 + body.peak)
  | .counted _ _ body => 3 + body.peak
  | .leave => 1
  | .case_ arms => 1 + arms.peak

def Arms.peak : Arms → Nat
  | .otherwise body => body.peak
  | .clause test body rest =>
    max test.peak (test.leaves + 1 + max body.peak (body.leaves + rest.peak))

end

mutual

theorem Prog.length_exits : ∀ (prog : Prog) (addr : Nat), (prog.exits addr).length = prog.leaves
  | .skip, _ | .literal _, _ | .data _, _ | .index _, _ | .call _, _ | .counted _ _ _, _ | .leave, _ => rfl
  | .seq first second, _ => by
    rw [exits, leaves, length_append, first.length_exits, second.length_exits, Nat.add_comm]
  | .ifThen body, _ => body.length_exits _
  | .ifElse body other, _ => by
    rw [exits, leaves, length_append, body.length_exits, other.length_exits, Nat.add_comm]
  | .untilLoop body, _ => body.length_exits _
  | .againLoop body, _ => body.length_exits _
  | .whileLoop test body, _ => by
    rw [exits, leaves, length_append, test.length_exits, body.length_exits, Nat.add_comm]
  | .case_ arms, _ => arms.length_exits _

theorem Arms.length_exits : ∀ (arms : Arms) (addr : Nat), (arms.exits addr).length = arms.leaves
  | .otherwise body, _ => body.length_exits _
  | .clause test body rest, _ => by
    rw [Arms.exits, Arms.leaves, length_append, length_append, test.length_exits, body.length_exits,
      rest.length_exits]
    omega

end

/-- The addresses lie between two others. -/
def Between (first last : Nat) (places : List Nat) : Prop := ∀ place ∈ places, first ≤ place ∧ place < last

variable {last : Nat} {places : List Nat}

theorem Between.append {first middle : Nat} {more : List Nat} (hplaces : Between first middle places)
    (hmore : Between middle last more) (hfst : first ≤ middle) (hlast : middle ≤ last) :
    Between first last (more ++ places) := by
  intro place hplace
  rcases List.mem_append.1 hplace with hplace | hplace
  · have := hmore place hplace
    omega
  · have := hplaces place hplace
    omega

theorem Between.widen {first lower upper : Nat} (hplaces : Between first last places)
    (hlower : lower ≤ first) (hupper : last ≤ upper) : Between lower upper places := by
  intro place hplace
  have := hplaces place hplace
  omega

mutual

/-- Code has its exits inside. -/
theorem Prog.between_exits : ∀ (prog : Prog) (addr : Nat),
    addr ≤ prog.finish addr ∧ Between addr (prog.finish addr) (prog.exits addr)
  | .skip, _ => ⟨Nat.le_refl _, fun _ hplace => (not_mem_nil hplace).elim⟩
  | .literal _, _ | .data _, _ | .index _, _ | .call _, _ =>
    ⟨Nat.le_add_right _ _, fun _ hplace => (not_mem_nil hplace).elim⟩
  | .seq first second, addr => by
    have ⟨hfst, hfirsts⟩ := first.between_exits addr
    have ⟨hsnd, hseconds⟩ := second.between_exits (first.finish addr)
    exact ⟨Nat.le_trans hfst hsnd, hfirsts.append hseconds hfst hsnd⟩
  | .ifThen body, addr => by
    have ⟨hbody, hexits⟩ := body.between_exits (addr + 8)
    exact ⟨by rw [finish]; omega, hexits.widen (by omega) (Nat.le_refl _)⟩
  | .ifElse body other, addr => by
    have ⟨hbody, hexits⟩ := body.between_exits (addr + 8)
    have ⟨hother, hothers⟩ := other.between_exits (body.finish (addr + 8) + 8)
    exact ⟨by rw [finish]; omega,
      (hexits.widen (by omega) (by omega)).append hothers (by omega) hother⟩
  | .untilLoop body, addr => by
    have ⟨hbody, hexits⟩ := body.between_exits addr
    exact ⟨by rw [finish]; omega, hexits.widen (Nat.le_refl _) (by rw [finish]; omega)⟩
  | .againLoop body, addr => by
    have ⟨hbody, hexits⟩ := body.between_exits addr
    exact ⟨by rw [finish]; omega, hexits.widen (Nat.le_refl _) (by rw [finish]; omega)⟩
  | .whileLoop test body, addr => by
    have ⟨htest, htests⟩ := test.between_exits addr
    have ⟨hbody, hexits⟩ := body.between_exits (test.finish addr + 8)
    exact ⟨by rw [finish]; omega, (htests.widen (Nat.le_refl _) (by omega)).append
      (hexits.widen (Nat.le_refl _) (by rw [finish]; omega)) (by omega) (by rw [finish]; omega)⟩
  | .counted _ _ body, addr => by
    have ⟨hbody, _⟩ := body.between_exits (addr + 8)
    exact ⟨by rw [finish]; omega, fun _ hplace => (not_mem_nil hplace).elim⟩
  | .leave, addr => by
    refine ⟨by rw [finish]; omega, fun place hplace => ?_⟩
    cases mem_singleton.1 hplace
    rw [finish]
    omega
  | .case_ arms, addr => by
    have ⟨harms, hexits⟩ := arms.between_exits addr
    exact ⟨by rw [finish]; omega, hexits.widen (Nat.le_refl _) (by rw [finish]; omega)⟩

theorem Arms.between_exits : ∀ (arms : Arms) (addr : Nat),
    addr ≤ arms.finish addr ∧ Between addr (arms.finish addr) (arms.exits addr)
  | .otherwise body, addr => body.between_exits addr
  | .clause test body rest, addr => by
    have ⟨htest, htests⟩ := test.between_exits addr
    have ⟨hbody, hexits⟩ := body.between_exits (test.finish addr + 8)
    have ⟨hrest, hrests⟩ := rest.between_exits (body.finish (test.finish addr + 8) + 8)
    have hboth := (htests.widen (Nat.le_refl _) (by omega)).append hexits (by omega) hbody
    exact ⟨by rw [Arms.finish]; omega,
      (hboth.widen (Nat.le_refl _) (by omega)).append hrests (by omega) hrest⟩

end

theorem Arms.between_ends : ∀ (arms : Arms) (addr : Nat),
    Between addr (arms.finish addr) (arms.ends addr)
  | .otherwise body, addr => fun _ hplace => (not_mem_nil hplace).elim
  | .clause test body rest, addr => by
    have htest := (test.between_exits addr).1
    have hbody := (body.between_exits (test.finish addr + 8)).1
    have hrest := (rest.between_exits (body.finish (test.finish addr + 8) + 8)).1
    have hown : Between addr (body.finish (test.finish addr + 8) + 8)
        [body.finish (test.finish addr + 8) + 4] := by
      intro place hplace
      cases mem_singleton.1 hplace
      omega
    exact hown.append (rest.between_ends _) (by omega) hrest

theorem Arms.ends_not_mem_exits : ∀ (arms : Arms) (addr : Nat), ∀ place ∈ arms.ends addr,
    place ∉ arms.exits addr
  | .otherwise _, _, _, hplace => (not_mem_nil hplace).elim
  | .clause test body rest, addr, place, hplace => by
    have ⟨htest, htests⟩ := test.between_exits addr
    have ⟨hbody, hexits⟩ := body.between_exits (test.finish addr + 8)
    have hrests := (rest.between_exits (body.finish (test.finish addr + 8) + 8)).2
    have hends := rest.between_ends (body.finish (test.finish addr + 8) + 8)
    have hrest := rest.ends_not_mem_exits (body.finish (test.finish addr + 8) + 8)
    grind [Arms.ends, Arms.exits, Between]

mutual

variable {vocabulary : Vocabulary}

theorem Prog.exits_eq_nil : ∀ (prog : Prog) (addr : Nat),
    prog.isValid vocabulary 0 = true → prog.exits addr = []
  | .skip, _, _ | .literal _, _, _ | .data _, _, _ | .index _, _, _ | .call _, _, _ | .counted _ _ _, _, _ => rfl
  | .leave, _, hvalid => by cases hvalid
  | .seq first second, _, hvalid => by
    have ⟨hfst, hsnd⟩ := Bool.and_eq_true_iff.1 hvalid
    rw [exits, first.exits_eq_nil _ hfst, second.exits_eq_nil _ hsnd, append_nil]
  | .ifThen body, _, hvalid => body.exits_eq_nil _ hvalid
  | .ifElse body other, _, hvalid => by
    have ⟨hbody, hother⟩ := Bool.and_eq_true_iff.1 hvalid
    rw [exits, body.exits_eq_nil _ hbody, other.exits_eq_nil _ hother, append_nil]
  | .untilLoop body, _, hvalid => body.exits_eq_nil _ hvalid
  | .againLoop body, _, hvalid => body.exits_eq_nil _ hvalid
  | .whileLoop test body, _, hvalid => by
    have ⟨htest, hbody⟩ := Bool.and_eq_true_iff.1 hvalid
    rw [exits, test.exits_eq_nil _ htest, body.exits_eq_nil _ hbody, append_nil]
  | .case_ arms, _, hvalid => arms.exits_eq_nil _ hvalid

theorem Arms.exits_eq_nil : ∀ (arms : Arms) (addr : Nat),
    arms.isValid vocabulary 0 = true → arms.exits addr = []
  | .otherwise body, _, hvalid => body.exits_eq_nil _ hvalid
  | .clause test body rest, _, hvalid => by
    have ⟨hboth, hrest⟩ := Bool.and_eq_true_iff.1 hvalid
    have ⟨htest, hbody⟩ := Bool.and_eq_true_iff.1 hboth
    simp only [Arms.exits, test.exits_eq_nil _ htest, body.exits_eq_nil _ hbody, rest.exits_eq_nil _ hrest,
      append_nil]

end

end ThreadedForth
