import GovFuzz.FuzzEngine.Structured

/-!
# Fuzz engine — what a loop over items wrote

The loops of the structured generators keep an output and a count and add an
item at a time.  Here is the invariant they share: the output is that of a
list of items, which is as long as the count and not longer than the number
of turns.
-/

namespace GovFuzz.FuzzEngine

open GovFuzz.Lib

section
variable {α : Type} {write : List α → List UInt8} {P : List α → Prop}

/-- After so many turns, the output of these items and their count. -/
def Written (write : List α → List UInt8) (P : List α → Prop) (turns : Nat) (items : Items) :
    Prop :=
  ∃ as, items = (write as, as.length) ∧ as.length ≤ turns ∧ P as

theorem Written.start (h : P []) : Written write P 0 (write [], 0) :=
  ⟨[], rfl, Nat.le_refl 0, h⟩

/-- A turn that ends the loop adds nothing. -/
theorem Written.later {turns : Nat} {items : Items} (h : Written write P turns items) :
    Written write P (turns + 1) items := by
  obtain ⟨as, hitems, hturns, has⟩ := h
  exact ⟨as, hitems, Nat.le_succ_of_le hturns, has⟩

/-- A turn that adds an item. -/
theorem Written.concat {turns : Nat} {as : List α} {a : α} {output : List UInt8}
    (hturns : as.length ≤ turns) (h : P (as ++ [a])) (houtput : output = write (as ++ [a])) :
    Written write P (turns + 1) (output, as.length + 1) := by
  have hcount : (as ++ [a]).length = as.length + 1 := by
    rw [List.length_append, List.length_singleton]
  refine ⟨as ++ [a], ?_, ?_, h⟩
  · rw [houtput, hcount]
  · rw [hcount]
    exact Nat.succ_le_succ hturns

theorem upTo_written {body : Items → Mutation (ForInStep Items)}
    (hbody : ∀ turns items, Written write P turns items →
      Op.Safe (fun r => Written write P (turns + 1) r.run) (body items))
    (n : Nat) {items : Items} (hstart : Written write P 0 items) :
    Op.Safe (Written write P n) (Op.upTo body n items) := by
  have hrun := Op.Safe.upTo_turns hbody (fun _ _ h => h.later) n hstart
  rwa [Nat.zero_add] at hrun

end

end GovFuzz.FuzzEngine
