import ShadowTaint.Proofs.Steps
/-!
# What leaves recorded taint alone

Most of what hooks do is bookkeeping about identities: shadows are taken off and put on, frames are
saved and restored, containers get shadows for what they hold. None of that records taint.

## Main definitions

- `Memory.Quiet`: the same is recorded about taint.

## Main statements

- `MemoryM.admitsHandles_quiet`: minting identities and adding handles is quiet.
- `MemoryM.quiet_wrap`, `MemoryM.quiet_prepareArguments`, `MemoryM.quiet_restoreArguments`: so putting
  shadows on and taking them off is.

## Design notes

Numbers of nodes only ever grow. That they do is part of the relation, since a history is told apart
from others by the number of its last node.
-/

namespace ShadowTaint

/-- The same is recorded about taint, though further numbers of nodes may have been used up. -/
structure Memory.Quiet (m m' : Memory) : Prop where
  entries : m'.shadow.entries = m.shadow.entries
  nodes : m.shadow.nextNode ≤ m'.shadow.nextNode

instance : IsPreorder Memory Memory.Quiet where
  refl _ := ⟨rfl, Nat.le_refl _⟩
  trans _ _ _ first second :=
    ⟨second.entries.trans first.entries, Nat.le_trans first.nodes second.nodes⟩

open Memory

namespace MemoryM

theorem quiet_modifyHeap (f : Heap → Heap) : Within Quiet (modifyHeap f) :=
  fun _ => ⟨rfl, Nat.le_refl _⟩

theorem admitsHandles_quiet : AdmitsHandles Quiet where
  mint _ := ⟨rfl, Nat.le_refl _⟩
  frame _ _ := ⟨rfl, Nat.le_refl _⟩
  handle _ _ _ := ⟨rfl, Nat.le_refl _⟩

theorem quiet_discard : Within Quiet discard := admitsHandles_quiet.discard

theorem quiet_wrapFresh (v : Value) : Within Quiet (wrapFresh v) := admitsHandles_quiet.wrapFresh v

theorem quiet_unwrap (v : Value) : Within Quiet (unwrap v) := admitsHandles_quiet.unwrap v

/-- Wrapping hands out identities and handles but records nothing about them. -/
theorem quiet_wrap (levels : Levels) (v : Value) : Within Quiet (wrap levels v) :=
  admitsHandles_quiet.wrap (fun _ _ => quiet_modifyHeap _) levels v

theorem quiet_prepareStored (policy : Policy) (v : Value) :
    Within Quiet (prepareStored policy v) :=
  admitsHandles_quiet.prepareStored policy v

theorem quiet_restoreStored (levels : Levels) (policy : Policy) (v : Value) :
    Within Quiet (restoreStored levels policy v) := by
  unfold restoreStored
  split
  · exact quiet_wrap levels v
  · exact .pure v

theorem quiet_prepareArguments (policy : Policy) (f : Value) (args : List Value) :
    Within Quiet (prepareArguments policy f args) :=
  admitsHandles_quiet.prepareArguments (fun _ _ _ => quiet_modifyHeap _) policy f args

theorem quiet_restoreArguments (levels : Levels) (policy : Policy) (f : Value) (args : List Value) :
    Within Quiet (restoreArguments levels policy f args) :=
  admitsHandles_quiet.restoreArguments (quiet_wrap levels) (fun _ _ _ => quiet_modifyHeap _) policy f args

end MemoryM

end ShadowTaint
