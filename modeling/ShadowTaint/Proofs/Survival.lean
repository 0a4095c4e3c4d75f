import ShadowTaint.Proofs.Discipline
/-!
# Identities survive an operation

What the host gets from the hook after an operation is what it passed to the hook before it: every
known shadow comes back in its place with its identity and its literal, and every object as it is. A
literal result comes back under an identity that occurred nowhere before.

## Main statements

- `Paired.operands_comeBack`: the operands and the result of an operation with whatever runs inside it.
- `Tracker.identities_lost`: why the sites of calls and the bodies of ghost functions are restricted.
-/

namespace ShadowTaint

open Memory Tracker

/-- From a reachable state at rest in which literals get shadows, the operands of an operation all of
whose hooks succeed come back, and a literal result comes back under an identity that occurred nowhere
when the operation had been carried out. The result of a ghost function is handed back as it is. -/
theorem Paired.operands_comeBack {t t₁ t₂ t₃ : Tracker} {p q : Paired} {r : Paired × Option Value}
    {result : Value} (reachable : Reachable t) (rest : t.memory.shadow.AtRest)
    (code : t.memory.shadow.frame.callType = .internal ∨
      t.memory.shadow.frame.callType = .external)
    (regular : p.Regular) (before : p.before t = (.ok q, t₁))
    (inside : Runs (.inside (p.entersBodies t)) t₁ none t₂)
    (undisturbed : Paired.Undisturbed t t₂ p q) (after : q.after result t₂ = (.ok r, t₃)) :
    List.Forall₂ (t.memory.ComesBack t₃.memory) p.operands r.1.operands ∧
      (∀ raw w, result = .literal raw → r.2 = some w → p.entersBodies t = true →
        ∃ handle id, w = .shadow handle id raw ∧ ¬ t₂.memory.shadow.Mentions id) ∧
      (p.entersBodies t = false → r.2 = some result) := by
  have wraps := CallType.skipsWrapping_eq_false_iff.mpr code
  have follows := trans_of (Follows Grows) (p.follows_before.of_apply before) inside.follows
  have bounded := follows.memory.bounded reachable.bounded
  have hands := Paired.hands_of_before rest before
  have resumed := inside.outcome (hands.ready regular)
  have back := (hands.closes_of_after follows resumed undisturbed after).returns wraps
  refine ⟨back.operands, fun raw w literal returned bodies => ?_, back.ghost⟩
  obtain ⟨handle, id, shadow, new⟩ := back.fresh bodies w returned raw literal
  refine ⟨handle, id, shadow, fun mention => ?_⟩
  have old := bounded id mention
  omega

/-- A tracker at its start, whose heap the host has replaced. -/
def Tracker.startWith (heap : Heap) : Tracker :=
  { start {} ⟨#[]⟩ with memory := { (start {} ⟨#[]⟩).memory with heap } }

theorem Tracker.reachable_startWith (heap : Heap) : Reachable (startWith heap) := .host heap (.start {} ⟨#[]⟩)

/-- A tracker on an empty heap after two literals. -/
def Tracker.withLiterals : Tracker :=
  ((Hook.literal (.string "x")).run ((Hook.literal (.string "s")).run (startWith ⟨#[]⟩)).2).2

/-- The literals are compared. -/
def Paired.compare : Paired :=
  .binary "===" (.shadow ⟨0⟩ ⟨0⟩ (.string "s")) (.shadow ⟨1⟩ ⟨1⟩ (.string "x"))

/-- The comparison as the host carries it out. -/
def Paired.compareOut : Paired := .binary "===" (.string "s") (.string "x")

/-- The comparison as it comes back. -/
def Paired.compareBack : Paired :=
  .binary "===" (.shadow ⟨5⟩ ⟨0⟩ (.string "s")) (.shadow ⟨4⟩ ⟨1⟩ (.string "x"))

/-- A function that is entered while the literals are compared negates the second one. -/
theorem Tracker.runs_negation :
    ∃ t₂, Runs (.inside true) (Paired.compare.before withLiterals).2 none t₂ ∧
      (Paired.compareOut.after (.literal (.bool false)) t₂).1 =
        .ok (Paired.compareBack, some (.shadow ⟨6⟩ ⟨3⟩ (.bool false))) := by
  have negation : Runs (.inside true) (Paired.compare.before withLiterals).2 none _ :=
    .body .undefined rfl
      (.next (.paired (p := .unary "!" (.shadow ⟨1⟩ ⟨1⟩ (.string "x"))) (.literal (.bool false)) trivial rfl
        (.nothing _) trivial rfl) (.done _)) rfl (.nothing _)
  exact ⟨_, negation, rfl⟩

/-- A tracker on a heap with a ghost function. -/
def Tracker.withGhost : Tracker :=
  startWith ⟨#[{ kind := .function { name := "__jalangi_clear_taint__" } }]⟩

/-- The ghost function is called, and the host takes it for an external one. -/
def Paired.ghostCall : Paired :=
  .call { f := .object 0, base := .undefined, args := [.undefined], external := true, site := 1 }

/-- Both operands of a comparison come back in their places, with a function run in between, and the
outcome gets an identity of its own. A ghost function hands its result back as it is. -/
theorem Paired.operands_comeBack_compare :
    withLiterals.memory.shadow.AtRest ∧ compare.entersBodies withLiterals = true ∧
    (compare.before withLiterals).1 = .ok compareOut ∧
    (∃ t₂ t₃, Runs (.inside true) (compare.before withLiterals).2 none t₂ ∧
      compareOut.after (.literal (.bool false)) t₂ =
        (.ok (compareBack, some (.shadow ⟨6⟩ ⟨3⟩ (.bool false))), t₃) ∧
      List.Forall₂ (withLiterals.memory.ComesBack t₃.memory) compare.operands compareBack.operands ∧
      ¬ t₂.memory.shadow.Mentions ⟨3⟩) ∧
    ghostCall.entersBodies withGhost = false ∧ (ghostCall.before withGhost).1 = .ok ghostCall ∧
    ∃ r, (ghostCall.after (.string "s") (ghostCall.before withGhost).2).1 = .ok r ∧
      r.2 = some (.string "s") := by
  have rest : withLiterals.memory.shadow.AtRest := .inl ⟨rfl, rfl⟩
  have before : (compare.before withLiterals).1 = .ok compareOut := rfl
  have reachable : Reachable withLiterals :=
    .hook (.literal (.string "x")) (.hook (.literal (.string "s")) (reachable_startWith ⟨#[]⟩))
  refine ⟨rest, rfl, before, ?_, ?_⟩
  · obtain ⟨t₂, inside, after⟩ := runs_negation
    have back := Paired.operands_comeBack (p := compare) reachable rest (.inl rfl) trivial
      (Prod.ext before rfl) inside trivial (Prod.ext after rfl)
    obtain ⟨handle, id, shadow, new⟩ := back.2.1 (.bool false) _ rfl rfl rfl
    cases shadow
    exact ⟨t₂, _, inside, Prod.ext after rfl, back.1, new⟩
  · have regular : (1 : CallSite) ≠ functionEntrySite := by decide
    have ghost : (withGhost.ghostOf?
        { f := .object 0, base := .undefined, args := [.undefined], external := true, site := 1 }).isSome = true :=
      rfl
    have run : ghostCall.before withGhost = (.ok ghostCall, (ghostCall.before withGhost).2) := rfl
    have back := Paired.operands_comeBack (t := withGhost) (p := ghostCall) (q := ghostCall)
      (reachable_startWith _) (.inl ⟨rfl, rfl⟩) (.inl rfl) regular run (.nothing _)
      (fun real => by rw [real] at ghost; cases ghost) (show ghostCall.after (.string "s") _ = _ from rfl)
    exact ⟨rfl, rfl, _, rfl, back.2.2 rfl⟩

/-- Inside a getter an external function is called at the site that stands for function entry, and it
calls back. Returns the argument of the call and what comes back for it. -/
def Tracker.callAtEntrySite : HookM (List Value) := do
  let _ ← getFieldPre (.object 0) (.string "key")
  enterFunction (.object 0)
  let arg ← literal (.string "s")
  let c ← callPre
    { f := .object 0, base := .undefined, args := [arg], external := true,
      site := functionEntrySite }
  enterFunction (.object 0)
  exitFunction false
  let (c, _) ← callPost c .undefined
  return arg :: c.args

/-- Inside a getter a property is read, and inside the read a getter calls a ghost function that has a
body. Returns the offset of the inner read and what comes back for it. -/
def Tracker.readAroundBody : HookM (List Value) := do
  let _ ← getFieldPre (.object 0) (.string "key")
  enterFunction (.object 0)
  let offset ← literal (.string "s")
  let (base, raw) ← getFieldPre (.object 0) offset
  enterFunction (.object 0)
  let c ← callPre { f := .object 0, base := .undefined, args := [.undefined], site := 1 }
  enterFunction (.object 0)
  exitFunction false
  let _ ← callPost c .undefined
  exitFunction false
  let ops ← getField base raw .undefined
  return [offset, ops.offset]

/-- A ghost function is called that the host takes for an external one. Returns the result. -/
def Tracker.callExternalGhost : HookM (List Value) := do
  let c ← callPre
    { f := .object 0, base := .undefined, args := [.undefined], external := true, site := 1 }
  let (_, result) ← callPost c (.string "s")
  return [result]

/-- The identities of the values that an action returns. -/
def Tracker.identities (t : Tracker) (action : HookM (List Value)) : List (Option Identity) :=
  match (action t).1 with
  | .ok vs => vs.map fun v => match v with
    | .shadow _ id _ => some id
    | _ => none
  | .error _ => []

/-- An operand comes back under the identity of another one, if it belongs to a call at the site that
stands for function entry, or if a ghost function inside the operation has a body. The result of a
ghost function stays without an identity. -/
theorem Tracker.identities_lost :
    (withFunction "f").identities callAtEntrySite = [some ⟨2⟩, some ⟨1⟩] ∧
    (withFunction "__jalangi_clear_taint__").identities readAroundBody = [some ⟨2⟩, some ⟨1⟩] ∧
    (withFunction "__jalangi_clear_taint__").identities callExternalGhost = [none] := by
  decide +kernel

end ShadowTaint
