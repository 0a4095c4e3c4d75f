import ShadowTaint.Proofs.Aftermath
import ShadowTaint.Proofs.Settling
/-!
# Tainted stores into prototypes

A store reaches a prototype by its key or by its base. It is refused when the stored value is tainted,
whatever kind of object the base is and whatever its policy does to the operands in between, but for two
things: the policy of the global object looks at the bit of the value and not at its characters, and a
key that is undefined or null is let pass.

## Main definitions

- `Policy.Sees`: the policy of the base notices the taint of the value.

## Main statements

- `Policy.putField_refuses`: the step of a policy refuses the store.
- `Tracker.putField_pollutes`: so does the hook after the store.
- `Session.pollution_passes`: what is let pass.
-/

namespace ShadowTaint

open Memory Tracker

namespace MemoryM

/-- Behind the shadow that a bare value is given is the value, whatever happens afterwards. -/
theorem valueOf_wrapped (levels : Levels) {r : Value} (bare : r.raw = r) {m m' : Memory}
    (grows : (wrap levels r m).2.Grows m') : m'.valueOf (wrap levels r m).1 = r := by
  cases r with
  | literal raw =>
    rw [wrap_bare] at grows ⊢
    rcases skips : (takeIdentity m).2.shadow.frame.callType.skipsWrapping
    · obtain ⟨handle, wrapped, known⟩ := lookup_shadow (takeIdentity m).1 raw skips
      rw [wrapped]
      exact ShadowState.valueOf_of_lookup (grows.lookup? known)
    · rw [shadow_of_skips skips]
      rfl
  | object id => rfl
  | shadow handle identity raw => cases bare

theorem settles_restoreStored (levels : Levels) (policy : Policy) (v : Value) (m : Memory) :
    m.Settles levels (restoreStored levels policy v m).2 := by
  by_cases strips : policy = .container .array .imprecise
  · rw [restoreStored_of_strips levels strips]
    exact settles_wrap levels v m
  · rw [restoreStored_of_keeps levels strips]
    exact .refl levels m

end MemoryM

namespace Memory

variable {m m' : Memory} {v w : Value}

/-- The entry of a value is that of what comes back for it, as long as nothing is recorded. -/
theorem ComesBack.stored? (back : m.ComesBack m' v w) (same : m.SameEntries m') {e : TaintEntry}
    (stored : m.stored? v = some e) : m'.stored? w = some e := by
  obtain ⟨key, own, found⟩ := Option.bind_eq_some_iff.mp stored
  refine Option.bind_eq_some_iff.mpr ⟨key, ?_, by rw [same]; exact found⟩
  rw [ShadowState.keyOf] at own ⊢
  rcases known : m.shadow.lookup? v with _ | ⟨id, raw⟩ <;> rw [known] at own
  · cases v with
    | object o =>
      rw [back.object o rfl]
      exact own
    | literal l => cases own
    | shadow handle identity l => cases own
  · rw [(back.shadow id raw known).1]
    exact own

/-- How a value is handed over does not depend on the heap. -/
theorem HandsStored.beside {r : Value} {below ids : List Identity} {policy : Policy}
    (h : m.HandsStored v below policy r ids) (heap : Heap) :
    Memory.HandsStored ⟨heap, m.shadow⟩ v below policy r ids := by
  cases h with
  | stripped out => exact .stripped ⟨out.shadow, out.object⟩
  | kept other => exact .kept other

theorem ownTaint_stored (own : m.ownTaint v = true) :
    ∃ e, m.stored? v = some e ∧ e.isTainted = true := by
  rcases stored : m.stored? v with _ | e
  · rw [ownTaint_of_none stored] at own
    cases own
  · rw [ownTaint_of_stored stored] at own
    exact ⟨e, rfl, own⟩

end Memory

/-- A policy notices that a value is tainted by the entry: that of the global object by the bit only. -/
def Policy.Sees (policy : Policy) (e : TaintEntry) : Prop :=
  policy = .global → e.bit = true

/-- What a store into a prototype is reported as: as that, or as one into the global object. -/
def FindingKind.IsPollution (kind : FindingKind) (key : String) : Prop :=
  kind = .prototypePollution key ∨ ∃ shown, kind = .globalWrite shown

/-- The step of a policy refuses a store into a prototype, and reports the history of the value. -/
theorem Policy.putField_refuses (policy : Policy) (levels : Levels) {ops : Operands} {m : Memory}
    {e : TaintEntry} (stored : m.stored? ops.value = some e) (tainted : e.isTainted = true)
    (sees : policy.Sees e) (named : (m.valueOf ops.offset).isNullish = false)
    (reaches : ObjectRule.reachesPrototype m ops.base (m.keyText ops.offset) = true) :
    ∃ kind m', policy.putField levels ops m = (.error (.finding ⟨kind, [e.path]⟩), m') ∧
      kind.IsPollution (m.keyText ops.offset) := by
  have path : (m.entryOf ops.value).path = e.path := by rw [Memory.entryOf, stored]
  have refused : ∃ m', ObjectRule.checkPollution ops m =
      (.error (.finding ⟨.prototypePollution (m.keyText ops.offset), [e.path]⟩), m') := by
    have whole : m.isTainted ops.value = true :=
      isTainted_of_ownTaint (by rw [ownTaint_of_stored stored, tainted])
    unfold ObjectRule.checkPollution
    rw [get_bind_apply, if_pos (by rw [named, whole, reaches]; rfl), ← path]
    exact ⟨_, rfl⟩
  have object (grain : Grain) : ∃ kind m', ObjectRule.putField grain ops m =
      (.error (.finding ⟨kind, [e.path]⟩), m') ∧ kind.IsPollution (m.keyText ops.offset) := by
    obtain ⟨m', refused⟩ := refused
    exact ⟨_, m', bind_apply_error refused, .inl rfl⟩
  cases policy with
  | global =>
    have bit : m.taintBit ops.value = true := by
      rw [Memory.taintBit, stored, Option.any_some, sees rfl]
    have written : ∃ m', GlobalRule.putField ops m =
        (.error (.finding ⟨.globalWrite (m.keyText ops.value), [e.path]⟩), m') := by
      unfold GlobalRule.putField
      rw [get_bind_apply, if_pos bit, ← path]
      exact ⟨_, rfl⟩
    obtain ⟨m', written⟩ := written
    exact ⟨_, m', written, .inr ⟨_, rfl⟩⟩
  | _ => exact object _

namespace Tracker

/-- The hook before a store hands base and offset out without shadows. -/
theorem raw_putFieldPreBody {base offset v : Value} {levels : Levels} {m m' : Memory} {ops : Operands}
    (run : putFieldPreBody base offset v levels m = (.ok ops, m')) :
    ops.base.raw = ops.base ∧ ops.offset.raw = ops.offset := by
  obtain ⟨_, m₁, -, rest⟩ := bind_eq_ok.mp run
  rw [lift_bind_apply, lift_bind_apply, get_bind_apply, lift_bind_apply] at rest
  cases rest
  exact ⟨MemoryM.raw_unwrap _ _, MemoryM.raw_unwrap _ _⟩

/-- A hook before a store that succeeds begins at rest, and what it does to the memory is what its body
does. -/
theorem putFieldPre_inv {t t₁ : Tracker} {base offset v : Value} {ops : Operands}
    (run : putFieldPre base offset v t = (.ok ops, t₁)) : t.memory.shadow.AtRest ∧ ∃ m,
      putFieldPreBody base offset v t.settings.policies t.memory = (.ok ops, m) ∧
      t₁.memory = m.ended ∧ t₁.settings = t.settings := by
  rcases body : putFieldPreBody base offset v t.settings.policies t.memory with ⟨result, m⟩
  obtain ⟨t', hooked, memory, settings, -⟩ := HookM.memoryHook_of "put_field_pre"
    (fun t => [("base", t.render base), ("offset", t.render offset), ("value", t.render v)])
    (putFieldPreBody base offset v) body
  rw [putFieldPre, hooked] at run
  cases run
  obtain ⟨_, m₁, idle, -⟩ := bind_eq_ok.mp body
  exact ⟨CheckedM.atRest_of_expectIdle idle, m, rfl, memory, settings⟩

/-- The operands of a store as the hook after it wraps them: base and offset are what the host had, the
value is the one that was stored, and nothing was recorded on the way. -/
theorem storeOperands_back (levels : Levels) {m₀ m : Memory} {v b o r : Value} {ido idb : Identity}
    {ids : List Identity} (bareb : b.raw = b) (bareo : o.raw = o)
    (outv : m₀.HandsStored v [ido, idb] (levels.policyFor m.heap b) r ids) (grows : m₀.Grows m)
    (reserved : m.shadow.frame.reserved = ids)
    (wraps : m.shadow.frame.callType.skipsWrapping = false) :
    ∃ ops m', storeOperands b o r levels m = (.ok ops, m') ∧ m'.valueOf ops.base = b ∧
      m'.valueOf ops.offset = o ∧ m₀.ComesBack m' v ops.value ∧ m.Settles levels m' := by
  obtain ⟨w, m₁, run₁, stacked₁, back⟩ := MemoryM.restoreStored_back levels outv grows reserved
  have settles₁ := MemoryM.settles_restoreStored levels (levels.policyFor m.heap b) r m
  rw [run₁] at settles₁
  have stacked₂ := MemoryM.stacks_wrap levels o m₁
  have settles₂ := MemoryM.settles_wrap levels o m₁
  have stacked₃ := MemoryM.stacks_wrap levels b (MemoryM.wrap levels o m₁).2
  have settles₃ := MemoryM.settles_wrap levels b (MemoryM.wrap levels o m₁).2
  have empty : (MemoryM.wrap levels b (MemoryM.wrap levels o m₁).2).2.shadow.frame.reserved = [] := by
    rw [stacked₃.reserved, stacked₂.reserved, stacked₁.reserved]
    rfl
  refine ⟨⟨_, (MemoryM.wrap levels o m₁).1, w⟩, _, ?_, MemoryM.valueOf_wrapped levels bareb (.refl _),
    MemoryM.valueOf_wrapped levels bareo settles₃.grows,
    (back wraps).mono (settles₂.grows.trans settles₃.grows),
    (settles₁.trans settles₂).trans settles₃⟩
  unfold storeOperands
  rw [get_bind_apply, lift_bind_of run₁, lift_bind_apply, lift_bind_apply,
    bind_apply_ok (CheckedM.checkPending_ok (List.length_eq_zero_iff.mpr empty))]
  rfl

/-- The hook before a store hands out what the hook after it wraps: base and offset are what the host had, the
value is the one that was stored, and nothing was recorded on the way. In between the host leaves the kind of
the base alone. -/
theorem storeOperands_of_pre {t t₁ : Tracker} {base offset v : Value} {ops : Operands} {heap : Heap}
    (wraps : t.memory.shadow.frame.callType.skipsWrapping = false)
    (before : putFieldPre base offset v t = (.ok ops, t₁))
    (same : t.settings.policies.policyFor heap ops.base =
      t.settings.policies.policyFor t.memory.heap ops.base) :
    ∃ w m, storeOperands ops.base ops.offset ops.value t.settings.policies ⟨heap, t₁.memory.shadow⟩ =
        (.ok w, m) ∧ m.valueOf w.base = ops.base ∧ m.valueOf w.offset = ops.offset ∧
      Memory.ComesBack ⟨heap, t.memory.shadow⟩ m v w.value ∧
      Memory.Settles t.settings.policies ⟨heap, t₁.memory.shadow⟩ m ∧ t.memory.SameEntries m ∧
      t₁.settings = t.settings := by
  obtain ⟨rest, m₁, pre, memory, settings⟩ := putFieldPre_inv before
  obtain ⟨b, o, r, idb, ido, ids, _, pre', -, -, outv, stacked, -⟩ :=
    putFieldPreBody_ok t.settings.policies rest base offset v
  obtain ⟨bareb, bareo⟩ := raw_putFieldPreBody pre
  have entries := ((calm_putFieldPreBody _ base offset v).within.of_apply pre).entries
  rw [pre] at pre'
  cases pre'
  have shadow : t₁.memory.shadow = m₁.ended.shadow := by rw [memory]
  rw [shadow]
  -- what the host does on the heap is put before the first hook, which does not look at it
  have grows : Memory.Grows ⟨heap, t.memory.shadow⟩ ⟨heap, m₁.ended.shadow⟩ :=
    ⟨.refl _, stacked.known, stacked.minted, stacked.bounded⟩
  obtain ⟨w, m, operands, valueb, valueo, back, settles⟩ := storeOperands_back t.settings.policies
    bareb bareo (same ▸ outv.beside heap) grows stacked.reserved (stacked.callType ▸ wraps)
  exact ⟨w, m, operands, valueb, valueo, back, settles, settles.entries.trans entries, settings⟩

/-- Where literals get shadows, a tainted value is not stored into a prototype: the hook after the store
refuses it and reports the history of the value. The value is a shadow, or an object with a tainted entry
of its own. In between the host stores the value and leaves the kind of the base alone; no array that
serves as the key holds a shadow that stands for something else than it carries. -/
theorem putField_pollutes {t t₁ : Tracker} {base offset v : Value} {ops : Operands} {heap : Heap}
    (code : t.memory.shadow.frame.callType = .internal ∨
      t.memory.shadow.frame.callType = .external)
    (tainted : t.memory.isTainted v = true) (own : v.object? = none ∨ t.memory.ownTaint v = true)
    (before : putFieldPre base offset v t = (.ok ops, t₁))
    (same : t.settings.policies.policyFor heap ops.base =
      t.settings.policies.policyFor t.memory.heap ops.base)
    (sound : (heap.elements? ops.offset).isSome = true → Memory.Sound ⟨heap, t₁.memory.shadow⟩)
    (reaches : heap.keyText ops.offset = "prototype" ∨ heap.keyText ops.offset = "__proto__" ∨
      ops.base = .object Heap.objectPrototype)
    (named : ops.offset.isNullish = false)
    (bit : t.settings.policies.policyFor heap ops.base = .global → t.memory.taintBit v = true) :
    ∃ kind t₂, putField ops.base ops.offset ops.value
        { t₁ with memory := ⟨heap, t₁.memory.shadow⟩ } =
      (.error (.finding ⟨kind, [(t.memory.entryOf v).path]⟩), t₂) ∧
      kind.IsPollution (heap.keyText ops.offset) := by
  have wraps := CallType.skipsWrapping_eq_false_iff.mpr code
  obtain ⟨e, stored, shows⟩ := ownTaint_stored (own.elim (fun plain => ownTaint_of_plain plain tainted) id)
  obtain ⟨w, m₃, operands, valueb, valueo, back, settles, entries, settings⟩ :=
    storeOperands_of_pre wraps before same
  have policy : m₃.policyOf t.settings.policies w.base = t.settings.policies.policyFor heap ops.base := by
    rw [Memory.policyOf, valueb, settles.policy]
  have key : m₃.keyText w.offset = heap.keyText ops.offset := by
    rw [Memory.keyText, valueo, settles.text ops.offset sound]
  have stored₃ : m₃.stored? w.value = some e := back.stored? entries stored
  have reaches₃ : ObjectRule.reachesPrototype m₃ w.base (m₃.keyText w.offset) = true := by
    rw [ObjectRule.reachesPrototype, key, Memory.objectOf?, valueb]
    rcases reaches with name | name | prototype
    · rw [name]
      rfl
    · rw [name]
      rfl
    · rw [prototype]
      exact Bool.or_true _
  obtain ⟨kind, m₄, refused, pollution⟩ := (m₃.policyOf t.settings.policies w.base).putField_refuses
    t.settings.policies stored₃ shows
    (fun global => by simpa [Memory.taintBit, stored] using bit (policy.symm.trans global))
    (by rw [valueo, named]) reaches₃
  rw [key] at pollution
  have attempt : putFieldAttempt ops.base ops.offset ops.value t.settings.policies
      ⟨heap, t₁.memory.shadow⟩ = (.error (.finding ⟨kind, [e.path]⟩), m₄) := by
    rw [putFieldAttempt_eq, bind_apply_ok operands, get_bind_apply, bind_apply_error refused]
  obtain ⟨t₂, hooked, -⟩ := HookM.memoryHook_of "put_field"
    (fun t => [("base", t.render ops.base), ("offset", t.render ops.offset), ("value", t.render ops.value)])
    (putFieldBody ops.base ops.offset ops.value) (t := { t₁ with memory := ⟨heap, t₁.memory.shadow⟩ })
    (by rw [settings]; exact putFieldBody_of_error attempt)
  have path : (t.memory.entryOf v).path = e.path := by rw [Memory.entryOf, stored]
  exact ⟨kind, t₂, by rw [path]; exact hooked, pollution⟩

/-- A tainted string. -/
def evil : Value := .shadow ⟨0⟩ ⟨0⟩ (.string "evil")

/-- A tracker with the tainted string, and with a plain object on its heap. -/
def withEvil : Tracker where
  settings := {}
  memory :=
    { heap := ⟨#[{ kind := .plain "Object" }]⟩
      shadow :=
        { wraps := #[(⟨0⟩, .string "evil")]
          entries := .ofList [(.identity ⟨0⟩, { bit := true, chars := none, path := .leaf 0 "" })]
          nextIdentity := 1 } }
  ghosts := {}
  scope := {}

/-- The heap after the string was stored into the object under a name of prototypes. -/
def pollutedHeap : Heap := withEvil.memory.heap.setProperty 0 "__proto__" evil

/-- The string is not stored there. -/
theorem putField_pollutes_evil : withEvil.memory.isTainted evil = true ∧
    ∃ t₁ kind t₂, putFieldPre (.object 0) (.string "__proto__") evil withEvil =
      (.ok ⟨.object 0, .string "__proto__", evil⟩, t₁) ∧
    putField (.object 0) (.string "__proto__") evil
        { t₁ with memory := ⟨pollutedHeap, t₁.memory.shadow⟩ } =
      (.error (.finding ⟨kind, [(withEvil.memory.entryOf evil).path]⟩), t₂) ∧
    kind.IsPollution "__proto__" := by
  have before : putFieldPre (.object 0) (.string "__proto__") evil withEvil =
      (.ok ⟨.object 0, .string "__proto__", evil⟩, _) := rfl
  obtain ⟨kind, t₂, refused, pollution⟩ := @putField_pollutes withEvil _ _ _ _ _ pollutedHeap
    (.inl rfl) (by decide) (.inl rfl) before (by decide) nofun (.inr (.inl (by decide))) rfl (by decide)
  exact ⟨by decide, _, kind, t₂, before, refused, pollution⟩

/-- The hooks of a store, one right after the other. -/
def storeHooks (base offset v : Value) : HookM Operands := do
  let ops ← putFieldPre base offset v
  putField ops.base ops.offset ops.value

end Tracker

namespace Session

/-- A heap with the global object, the root prototype, and functions that taint values and single
characters of them. -/
def rootsAndSources : Heap :=
  ⟨#[{ kind := .global }, { kind := .objectPrototype },
    { kind := .function { name := "__jalangi_set_taint__" } },
    { kind := .function { name := "__jalangi_set_prop_taint__" } }]⟩

/-- The string is tainted as a whole. -/
def taintedWhole : List Event :=
  [.host rootsAndSources, .hook (.literal (.string "evil")),
    .hook (.callPre { f := .object 2, base := .undefined, args := [evil], site := 0 })]

/-- The first character of the string is tainted. -/
def taintedCharacter : List Event :=
  [.host rootsAndSources, .hook (.literal (.string "evil")),
    .hook (.callPre { f := .object 3, base := .undefined, args := [evil, .string "0"], site := 0 })]

/-- In reachable states in which literals get shadows, a tainted string is stored into the root prototype
under the key undefined, and one with a tainted character into the global object under a name of
prototypes. -/
theorem pollution_passes :
    (Reachable (run (start {} ⟨#[]⟩) taintedWhole).tracker ∧
      (run (start {} ⟨#[]⟩) taintedWhole).tracker.memory.shadow.frame.callType = .internal ∧
      (run (start {} ⟨#[]⟩) taintedWhole).tracker.memory.shadow.isWrapped evil = true ∧
      (run (start {} ⟨#[]⟩) taintedWhole).tracker.memory.isTainted evil = true ∧
      (storeHooks (.object Heap.objectPrototype) .undefined evil
        (run (start {} ⟨#[]⟩) taintedWhole).tracker).1.isOk = true) ∧
    Reachable (run (start {} ⟨#[]⟩) taintedCharacter).tracker ∧
      (run (start {} ⟨#[]⟩) taintedCharacter).tracker.memory.shadow.frame.callType = .internal ∧
      (run (start {} ⟨#[]⟩) taintedCharacter).tracker.memory.shadow.isWrapped evil = true ∧
      (run (start {} ⟨#[]⟩) taintedCharacter).tracker.memory.isTainted evil = true ∧
      (storeHooks (.object Heap.global) (.string "__proto__") evil
        (run (start {} ⟨#[]⟩) taintedCharacter).tracker).1.isOk = true := by
  refine ⟨⟨reachable_run (.start {} ⟨#[]⟩) taintedWhole, ?_⟩,
    reachable_run (.start {} ⟨#[]⟩) taintedCharacter, ?_⟩
  · decide +kernel
  · decide +kernel

end Session

end ShadowTaint
