import ShadowTaint.Tracker.Basic
/-!
# Hooks of evaluated code

Evaluating tainted code is a finding, or else the code is replaced by code that runs inside a
scope.

## Main definitions

- `Tracker.codePre`, `Tracker.codePost`: before and after code is prepared for evaluation.
-/

namespace ShadowTaint.Tracker

/-- What the history of code says when it is evaluated. -/
def evalLabel : String := "call:eval"

/-- Notes the evaluation in the history of the code. Where evaluating is a sink, tainted code is
refused. -/
def checkCode (code : Value) (sink : Bool) (maxLength : Nat) : CheckedM Unit := do
  MemoryM.relabel code evalLabel
  let m ← get
  if sink && m.isTainted code then
    let shown := m.heap.describe (m.valueOf code) maxLength
    throw (.finding { kind := .evalReached shown, paths := [← MemoryM.history code] })

/-- Whether a text contains another one. -/
def containsText (s part : String) : Bool := Text.occursIn part.toList s.toList

/-- The body of `codePre`. -/
def codePreBody (code : Value) (internal sink : Bool) (maxLength : Nat) : CheckedM String := do
  CheckedM.expectIdle "WEvalPre"
  let raw ← MemoryM.unwrap code
  if internal then MemoryM.discard
  let m ← get
  let source := m.heap.keyText raw
  if containsText source Rewrite.instrumentMarker then return source
  if sink then
    checkCode code sink maxLength
    return source
  if m.isTainted code && !containsText source Rewrite.rewriteMarker then
    return Rewrite.rewrite source
  return source

/-- Code is about to be evaluated. Returns the code that the host has to prepare. -/
def codePre (code : Value) (internal : Bool) : HookM String :=
  HookM.hook "instrument_code_pre"
    (fun t => [("code", t.render code), ("is_internal", if internal then "true" else "false")]) do
      let t ← get
      HookM.onMemory (codePreBody code internal t.scope.sink t.settings.maxLength)

/-- The body of `codePost`. -/
def codePostBody (code : String) (sink : Bool) (maxLength : Nat) (levels : Levels) :
    CheckedM String := do
  let wrapped ← MemoryM.wrap levels (.string code)
  CheckedM.checkPending "WEval" 0
  checkCode wrapped sink maxLength
  return code

/-- Code has been prepared for evaluation. Returns the code to run. -/
def codePost (code : String) : HookM String :=
  HookM.hook "instrument_code" (fun t => [("code", t.render (.string code))]) do
    let t ← get
    HookM.onMemory (codePostBody code t.scope.sink t.settings.maxLength t.settings.policies)

end ShadowTaint.Tracker
