import ShadowTaint.Proofs.Effects
/-!
# What ghost functions can do

A ghost function only records taint, and if it fails, then with a fault of its own: an assertion of
the analysed program, the end of the run, a fault of character taint, a scope that was not open, or
the finding that the program asked for.

## Main definitions

- `Ghost.Modest`: an action that records taint and fails with such faults only.

## Main statements

- `Ghost.modest_run`: every ghost function is modest.
-/

namespace ShadowTaint

open Memory Tracker

theorem Raises.onMemory {P : Fault → Prop} {α : Type} {action : CheckedM α} (h : Raises P action) :
    Raises P (HookM.onMemory action) := by
  intro t e t' run
  rw [HookM.onMemory_apply] at run
  rcases acted : action t.memory with ⟨result, m⟩
  rw [acted] at run
  cases run
  exact h _ _ _ acted

namespace MemoryM

theorem raises_setPropertyTaint (v : Value) (key : String) (tainted : Bool) :
    Raises Fault.OfGhost (CheckedM.setPropertyTaint v key tainted) := by
  refine .bind .get fun m => ?_
  split
  · exact .throw trivial
  · refine .bind (.lift _) fun old => ?_
    dsimp only
    split
    · exact .throw trivial
    · exact .lift _

theorem raises_check (v : Value) : Raises Fault.OfGhost (CheckedM.check v) := by
  refine .bind .get fun m => ?_
  split
  · exact .bind (.lift _) fun _ => .throw rfl
  · exact .pure _

end MemoryM

namespace Ghost

/-- The action records taint at most, and fails with a fault of a ghost function if it fails. -/
structure Modest {α : Type} (x : HookM α) : Prop where
  marks : Within (Follows Marks) x
  raises : Raises Fault.OfGhost x

namespace Modest

variable {α β : Type}

protected theorem pure (a : α) : Modest (pure a : HookM α) := ⟨.pure_except a, .pure a⟩

protected theorem get : Modest (get : HookM Tracker) := ⟨.get_except, .get⟩

protected theorem throw {e : Fault} (h : e.OfGhost) : Modest (throw e : HookM α) :=
  ⟨.throw e, .throw h⟩

protected theorem bind {x : HookM α} {f : α → HookM β} (hx : Modest x) (hf : ∀ a, Modest (f a)) :
    Modest (x >>= f) :=
  ⟨.bind_except hx.marks fun a => (hf a).marks, .bind hx.raises fun a => (hf a).raises⟩

theorem onMemory {action : CheckedM α} (marks : Within Marks action)
    (raises : Raises Fault.OfGhost action) : Modest (HookM.onMemory action) :=
  ⟨HookM.follows_onMemory marks, raises.onMemory⟩

theorem logEvent (e : LogEvent) : Modest (HookM.logEvent e) :=
  ⟨HookM.follows_logEvent e, .lift _⟩

theorem setPropertyTaint (v : Value) (key : String) (tainted : Bool) :
    Modest (HookM.onMemory (CheckedM.setPropertyTaint v key tainted)) :=
  onMemory (MemoryM.marks_setPropertyTaint v key tainted)
    (MemoryM.raises_setPropertyTaint v key tainted)

theorem setTaint (v : Value) (tainted : Bool) :
    Modest (HookM.onMemory (MemoryM.setTaint v tainted)) :=
  onMemory (.lift (MemoryM.marks_setTaint v tainted)) (.lift _)

theorem check (v : Value) : Modest (HookM.onMemory (CheckedM.check v)) :=
  onMemory (MemoryM.marks_check v) (MemoryM.raises_check v)

theorem registerSink (v : Value) (kind : SinkKind) (category : SinkCategory) :
    Modest (HookM.registerSink v kind category) := by
  refine ⟨HookM.follows_registerSink v kind category, .bind .get fun t => ?_⟩
  split
  · exact .pure _
  · exact .bind (.lift _) fun _ => .bind (.lift _) fun _ => .pure _

end Modest

theorem admits_modest (ghost : Ghost) : ghost.Admits fun _ x => Modest x where
  returns := .pure
  binds := .bind
  reads := .get
  fails ofGhost _ := .throw ofGhost
  logEvent := .logEvent
  registerSink := .registerSink
  check := .check
  whole tainted v _ := .setTaint v tainted
  property tainted v key _ := .setPropertyTaint v key tainted
  push _ := ⟨fun t => ⟨rfl, rfl, refl_of Marks t.memory⟩, .lift _⟩
  pop _ args := by
    refine .bind .get fun t => ?_
    dsimp only
    split
    · exact ⟨fun t => ⟨rfl, rfl, refl_of Marks t.memory⟩, .lift _⟩
    · rename_i e failed
      refine .throw ?_
      unfold EvalScope.pop at failed
      split at failed <;> cases failed
      rfl

/-- No ghost function does more than record taint, whatever its arguments are. -/
theorem modest_run (ghost : Ghost) (args : List Value) : Modest (ghost.run args) :=
  ghost.admits_modest.run args

end Ghost

end ShadowTaint
