import ShadowTaint.Proofs.ArrayCalls
import ShadowTaint.Proofs.Dropping
import ShadowTaint.Proofs.Persistence
import ShadowTaint.Proofs.Pollution
/-!
# Putting tainted literals into arrays

An array that is tracked as a whole holds bare literals, so it has to take over the taint of what is put into
it. A store has it do so if objects are tracked as a whole, too; otherwise nothing is recorded. A push has it
do so if the bit of an argument is set, and a text with single tainted characters has no bit. What an array
has taken over it keeps through all further pushes.

## Main definitions

- `Tracker.Puts`: a value is put into an array, and the array notices that or not.
- `Tracker.PushRun`: values are pushed onto an array, one after the other.

## Main statements

- `Tracker.Puts.ownTaint`: what is recorded for the array then.
- `Tracker.taints_array_iff`: when the array is tainted, and that it stays so.
- `Tracker.array_stays_clean`: a store and a push that leave an array untainted.
-/

namespace ShadowTaint

open Memory Tracker

namespace Memory

variable {m m' : Memory} {v : Value} {o : ObjectId}

/-- One entry was stored: an object is tainted as it says if it is the entry of the object. -/
theorem Records.ownTaint_object {tainted : Bool} {label : String} {sources : List Value}
    (h : m.Records m' v tainted label sources) (o : ObjectId) : m'.ownTaint (.object o) =
      if m.shadow.keyOf v = some (.object o) then tainted else m.ownTaint (.object o) := by
  obtain ⟨e, isTainted, -, entries⟩ := h.get?
  have own (m : Memory) : m.ownTaint (.object o) = (m.shadow.entries.get? (.object o)).any (·.isTainted) := by
    rw [ownTaint_eq_any, stored?_of_key (m := m) (v := .object o) rfl]
  rw [own, own, entries]
  split
  · exact isTainted
  · rfl

theorem ownTaint_object_of_entries (same : m'.shadow.entries = m.shadow.entries) (o : ObjectId) :
    m'.ownTaint (.object o) = m.ownTaint (.object o) := by
  rw [ownTaint_eq_any, ownTaint_eq_any, stored?_of_key (m := m') (v := .object o) rfl,
    stored?_of_key (m := m) (v := .object o) rfl, same]

/-- What an object value is behind its shadow is the object. -/
theorem keyOf_of_object (value : m.valueOf v = .object o) : m.shadow.keyOf v = some (.object o) := by
  have object : v = .object o :=
    MemoryM.objectOf?_eq_some (by rw [objectOf?, value]; rfl)
  rw [object]
  rfl

end Memory

/-- A push taints an array by its own entry if the bit of an argument is set. -/
theorem ArrayRule.ownTaint_push {c : NativeCall} {o : ObjectId} (base : c.base = .object o) (m : Memory) :
    (ArrayRule.push c m).2.ownTaint (.object o) =
      (c.args.any m.taintBit || m.ownTaint (.object o)) := by
  have rule := (ArrayRule.records_push c m).2
  split at rule
  · rename_i bit
    rw [rule.ownTaint_object, base, if_pos (by rfl), bit, Bool.true_or]
  · rename_i clear
    rw [rule, Bool.eq_false_iff.mpr clear, Bool.false_or]

namespace Tracker

/-- An array that is tracked as a whole, where literals get shadows. -/
structure TracksWhole (t : Tracker) (array : ObjectId) : Prop where
  bounded : t.memory.shadow.Bounded
  wraps : t.memory.shadow.frame.callType.skipsWrapping = false
  policy : t.settings.policies.policyFor t.memory.heap (.object array) = .container .array .imprecise

/-- Values are pushed onto the array, in one call after the other. -/
inductive PushRun (array : ObjectId) : Tracker → Tracker → Prop where
  | done (t : Tracker) : PushRun array t t
  | push {t t₁ t₂ : Tracker} {c c' : Call} {r : Value}
      (calls : t.CallsMethod c ArrayMethod.push.name (.array .push) array)
      (pushes : invoke c none t = (.ok (c', r), t₁)) (run : PushRun array t₁ t₂) : PushRun array t t₂

/-- The value is put into the array, and the array notices the taint or not: a store under a key is noticed
if objects are tracked as a whole, and a push if the bit of an argument is set. -/
inductive Puts (t : Tracker) (array : ObjectId) (v : Value) : Bool → Tracker → Prop where
  | store {offset : Value} {ops : Operands} {t₁ : Tracker}
      (run : storeField (.object array) offset v t = (.ok ops, t₁)) :
      Puts t array v (t.settings.policies.objectGrain == .imprecise) t₁
  | push {c c' : Call} {r : Value} {t₁ : Tracker}
      (calls : t.CallsMethod c ArrayMethod.push.name (.array .push) array) (pushed : v ∈ c.args)
      (run : invoke c none t = (.ok (c', r), t₁)) : Puts t array v (c.args.any t.memory.taintBit) t₁

variable {t t₁ t₂ : Tracker} {c c' : Call} {array : ObjectId} {r v : Value}

/-- After a push the array is tainted by its own entry if it was before, or if the bit of an argument was set.
It is still tracked as a whole. -/
theorem TracksWhole.push (whole : t.TracksWhole array)
    (calls : t.CallsMethod c ArrayMethod.push.name (.array .push) array)
    (pushes : invoke c none t = (.ok (c', r), t₁)) : t₁.TracksWhole array ∧
      t₁.memory.ownTaint (.object array) =
        (c.args.any t.memory.taintBit || t.memory.ownTaint (.object array)) := by
  obtain ⟨v, m₁, m₂, m, h⟩ := arrayRun_of_invoke calls whole.wraps whole.policy nofun pushes
  have policy := h.policyOf whole.policy
  have marks := marks_propagateCall (r := r) (by rw [h.base]; exact policy)
  refine ⟨⟨?_, by rw [h.sameFrames.callType, whole.wraps], ?_⟩, ?_⟩
  · rw [h.rule]
    exact marks.spreads.toGrows.bounded (h.grows.bounded whole.bounded)
  · rw [h.settings, h.rule]
    show t.settings.policies.policyFor (propagateCall c' r t.settings.policies m).2.heap _ = _
    rw [marks.heap]
    exact policy
  · rw [h.rule_of_model ArrayRule.push whole.policy rfl, if_pos (ArrayRule.records_push _ m).1]
    show (ArrayRule.push ⟨c'.f, c'.base, c'.args, r⟩ m).2.ownTaint (.object array) = _
    rw [ArrayRule.ownTaint_push h.base, h.any_taintBit whole.bounded, h.ownTaint_object whole.bounded]

/-- An array that is tainted by its own entry stays so through all pushes, by induction on them. -/
theorem PushRun.ownTaint (run : PushRun array t t₁) (whole : t.TracksWhole array)
    (own : t.memory.ownTaint (.object array) = true) : t₁.memory.ownTaint (.object array) = true := by
  induction run with
  | done t => exact own
  | push calls pushes _ ih =>
    obtain ⟨whole', own'⟩ := whole.push calls pushes
    exact ih whole' (by rw [own', own, Bool.or_true])

section Stores

variable {offset : Value} {ops p : Operands} {id : Identity} {raw : Literal} {t₀ : Tracker}

/-- A store that succeeds has wrapped its operands and has recorded what it did. -/
theorem putField_inv {base : Value} (run : putField base offset v t = (.ok ops, t₁)) :
    ∃ m m', storeOperands base offset v t.settings.policies t.memory = (.ok ops, m) ∧
      (m.policyOf t.settings.policies ops.base).putField t.settings.policies ops m = (.ok (), m') ∧
      t₁.memory = m'.ended := by
  rcases body : putFieldBody base offset v t.settings.policies t.memory with ⟨result, m'⟩
  obtain ⟨_, hooked, memory, -⟩ := HookM.memoryHook_of "put_field"
    (fun t => [("base", t.render base), ("offset", t.render offset), ("value", t.render v)])
    (putFieldBody base offset v) body
  obtain ⟨rfl, rfl⟩ := Prod.mk.inj (hooked.symm.trans run)
  rcases attempt : putFieldAttempt base offset v t.settings.policies t.memory with ⟨e | ops', m''⟩
  · rw [putFieldBody_of_error attempt] at body
    cases body
  · rw [putFieldBody_of_ok attempt] at body
    cases body
    rw [putFieldAttempt_eq] at attempt
    obtain ⟨w, m, operands, rest⟩ := bind_eq_ok.mp attempt
    rw [get_bind_apply] at rest
    obtain ⟨_, m₂, stored, done⟩ := bind_eq_ok.mp rest
    cases done
    exact ⟨m, _, operands, stored, memory⟩

/-- A complete store into an array: the hook before it, the store, and the hook after it. -/
theorem storeField_inv (run : storeField (.object array) offset v t = (.ok ops, t₁)) :
    ∃ p t₀, putFieldPre (.object array) offset v t = (.ok p, t₀) ∧ p.base = .object array ∧
      t₀.memory.heap = t.memory.heap ∧
      putField p.base p.offset p.value { t₀ with memory := { t₀.memory with
        heap := t.memory.heap.setProperty array (t.memory.heap.keyText p.offset) p.value } } =
          (.ok ops, t₁) := by
  obtain ⟨p, t₀, before, rest⟩ := bind_eq_ok.mp run
  obtain ⟨atRest, m, pre, memory, -⟩ := putFieldPre_inv before
  obtain ⟨b, o, r, idb, ido, ids, _, pre', out, -, -, -, heap⟩ :=
    putFieldPreBody_ok t.settings.policies atRest (.object array) offset v
  rw [pre] at pre'
  cases pre'
  have base : b = .object array := out.object array rfl
  have heap' : t₀.memory.heap = t.memory.heap := by rw [memory]; exact heap
  subst base
  refine ⟨_, t₀, before, rfl, heap', ?_⟩
  rw [← heap']
  exact rest

/-- The host changes the heap after the hook before a store. -/
theorem follows_stored {base : Value} {heap : Heap} (before : putFieldPre base offset v t = (.ok p, t₀))
    (evolves : t₀.memory.heap.Evolves heap) :
    Follows Grows t { t₀ with memory := { t₀.memory with heap } } := by
  have follows := (Hook.putFieldPre base offset v).follows t
  rw [show (Hook.putFieldPre base offset v).run t = (_, t₀) from bind_apply_ok before] at follows
  exact trans_of (Follows Grows) follows (follows_host evolves)

/-- After a complete store the frames are those before it, as after any operation. -/
theorem sameFrames_store {base : Value} {heap : Heap} (before : putFieldPre base offset v t = (.ok p, t₀))
    (follows : Follows Grows t { t₀ with memory := { t₀.memory with heap } })
    (undisturbed : Paired.Undisturbed t { t₀ with memory := { t₀.memory with heap } }
      (.putField base offset v) (.putField p.base p.offset p.value))
    (after : putField p.base p.offset p.value { t₀ with memory := { t₀.memory with heap } } = (.ok ops, t₁)) :
    t.memory.SameFrames t₁.memory := by
  obtain ⟨rest, m, -, ended, -⟩ := putFieldPre_inv before
  have hands : Hands t t₀ (.putField base offset v) (.putField p.base p.offset p.value) :=
    Paired.hands_of_before rest (by rw [Paired.before, bind_apply_ok before]; rfl)
  have resumes : t₀.memory.Resumes { t₀.memory with heap } :=
    ⟨by show t₀.memory.shadow.context = _; rw [ended]; rfl, rfl, fun _ => rfl, fun _ => rfl⟩
  have run : (Paired.putField p.base p.offset p.value).after .undefined
      { t₀ with memory := { t₀.memory with heap } } =
      (.ok (.putField ops.base ops.offset ops.value, none), t₁) := by
    rw [Paired.after, bind_apply_ok after]
    rfl
  exact (hands.closes_of_after follows resumes undisturbed run).same

/-- What a complete store into an array that is tracked as a whole does. Its operands come back, which leaves
`m`, and then the rule for objects applies. -/
structure StoreRun (t : Tracker) (array : ObjectId) (v : Value) (ops : Operands) (t₁ : Tracker) (m m' : Memory) :
    Prop where
  base : m.valueOf ops.base = .object array
  value : t.memory.ComesBack m v ops.value
  entries : t.memory.SameEntries m
  bounded : t.memory.shadow.Bounded → m.shadow.Bounded
  policy : t.settings.policies.policyFor m.heap (.object array) =
    t.settings.policies.policyFor t.memory.heap (.object array)
  rule : ObjectRule.putField t.settings.policies.objectGrain ops m = (.ok (), m')
  memory : t₁.memory = m'.ended
  settings : t₁.settings = t.settings
  sameFrames : t.memory.SameFrames t₁.memory

theorem storeRun_of_storeField (whole : t.TracksWhole array)
    (run : storeField (.object array) offset v t = (.ok ops, t₁)) : ∃ m m', StoreRun t array v ops t₁ m m' := by
  obtain ⟨p, t₀, before, base, heap, after⟩ := storeField_inv run
  have allocated := t.settings.policies.allocated_of_policyFor whole.policy
  have evolves := t.memory.heap.evolves_setProperty array (t.memory.heap.keyText p.offset) p.value
  have tag := t.memory.heap.importTag?_setProperty array (t.memory.heap.keyText p.offset) p.value
  generalize t.memory.heap.setProperty array (t.memory.heap.keyText p.offset) p.value = stored at *
  have same : t.settings.policies.policyFor stored (.object array) =
      t.settings.policies.policyFor t.memory.heap (.object array) :=
    t.settings.policies.policyFor_of_tags evolves tag allocated
  obtain ⟨w, m, operands, valueb, -, back, settles, entries, settings⟩ :=
    storeOperands_of_pre whole.wraps before (by rw [base, same])
  obtain ⟨m₁, m₂, operands', rule, memory⟩ := putField_inv after
  dsimp only at operands' rule
  rw [settings, operands] at operands'
  cases operands'
  have policy : m.policyOf t.settings.policies ops.base = .container .array .imprecise := by
    rw [Memory.policyOf, valueb, settles.policy, base, same, whole.policy]
  rw [settings, policy] at rule
  have follows := follows_stored before (heap ▸ evolves)
  have after' := (Hook.putField p.base p.offset p.value).follows
    { t₀ with memory := { t₀.memory with heap := stored } }
  rw [show (Hook.putField p.base p.offset p.value).run _ = (_, t₁) from bind_apply_ok after] at after'
  refine ⟨m, m₂, valueb.trans base, ⟨back.shadow, back.object⟩, entries, fun bounded => ?_, ?_, rule, memory,
    after'.settings.trans settings, sameFrames_store before follows ⟨fun o object => ?_, tag _⟩ after⟩
  · exact settles.grows.bounded (follows.memory.bounded bounded)
  · rw [settles.policy, same]
  · rw [base] at object
    cases object
    exact allocated

/-- After a store of a tainted literal the array is tainted by its own entry if it was before, or if objects
are tracked as a whole. It is still tracked as a whole itself. -/
theorem TracksWhole.store (whole : t.TracksWhole array)
    (known : t.memory.shadow.lookup? v = some (id, raw)) (tainted : t.memory.isTainted v = true)
    (run : storeField (.object array) offset v t = (.ok ops, t₁)) : t₁.TracksWhole array ∧
      t₁.memory.ownTaint (.object array) =
        (t.settings.policies.objectGrain == .imprecise || t.memory.ownTaint (.object array)) := by
  obtain ⟨m, m₁, h⟩ := storeRun_of_storeField whole run
  have value : m.isTainted ops.value = true := by
    rw [isTainted_of_lookup (h.value.shadow id raw known).1, h.entries, ← isTainted_of_lookup known, tainted]
  have rule := h.rule
  obtain ⟨marks, own⟩ : m.Marks m₁ ∧ m₁.ownTaint (.object array) =
      (t.settings.policies.objectGrain == .imprecise || t.memory.ownTaint (.object array)) := by
    rcases ObjectRule.records_putField t.settings.policies.objectGrain ops m with
      ⟨f, m', -, refused, -⟩ | ⟨precise, done⟩ | ⟨m', imprecise, -, done, records⟩
    · rw [refused] at rule
      cases rule
    · rw [done] at rule
      cases rule
      rw [precise, ownTaint_object_of_entries h.entries]
      exact ⟨refl_of Marks m, rfl⟩
    · rw [done] at rule
      cases rule
      rw [records.ownTaint_object, if_pos (keyOf_of_object h.base), value, imprecise, Bool.or_true]
      exact ⟨records.marks, rfl⟩
  refine ⟨⟨?_, by rw [h.sameFrames.callType, whole.wraps], ?_⟩, ?_⟩
  · rw [h.memory]
    exact marks.spreads.toGrows.bounded (h.bounded whole.bounded)
  · rw [h.settings, h.memory, ← whole.policy, ← h.policy, ← marks.heap]
    rfl
  · have ended : m₁.ended.ownTaint (.object array) = m₁.ownTaint (.object array) :=
      ownTaint_object_of_entries rfl array
    rw [h.memory, ended, own]

end Stores

/-- What is recorded for an array when a tainted literal was put into it. -/
theorem Puts.ownTaint {noticed : Bool} {id : Identity} {raw : Literal} (puts : t.Puts array v noticed t₁)
    (whole : t.TracksWhole array) (known : t.memory.shadow.lookup? v = some (id, raw))
    (tainted : t.memory.isTainted v = true) : t₁.TracksWhole array ∧
      t₁.memory.ownTaint (.object array) = (noticed || t.memory.ownTaint (.object array)) := by
  cases puts with
  | store run => exact whole.store known tainted run
  | push calls pushed run => exact whole.push calls run

/-- A tainted literal is put into an array that is tracked as a whole. The array is tainted then if it notices,
or if it was tainted by its own entry before, and then it stays so through all further pushes. Otherwise it
only shows the taint of the objects in it. -/
theorem taints_array_iff {noticed : Bool} {id : Identity} {raw : Literal} (reachable : Reachable t)
    (caller : t.memory.shadow.frame.callType = .internal ∨ t.memory.shadow.frame.callType = .external)
    (policy : t.settings.policies.policyFor t.memory.heap (.object array) = .container .array .imprecise)
    (known : t.memory.shadow.lookup? v = some (id, raw)) (tainted : t.memory.isTainted v = true)
    (puts : t.Puts array v noticed t₁) :
    (t₁.memory.isTainted (.object array) = true ↔
      (noticed = true ∨ t.memory.ownTaint (.object array) = true) ∨
        (t₁.memory.stored? (.object array)).bind (·.chars) = none ∧
          ∃ w ∈ t₁.memory.members (.object array), t₁.memory.taintBit w = true) ∧
    (noticed = true ∨ t.memory.ownTaint (.object array) = true →
      ∀ t₂, PushRun array t₁ t₂ → t₂.memory.isTainted (.object array) = true) := by
  have whole : t.TracksWhole array :=
    ⟨reachable.bounded, CallType.skipsWrapping_eq_false_iff.mpr caller, policy⟩
  obtain ⟨whole₁, own⟩ := puts.ownTaint whole known tainted
  rw [← Bool.or_eq_true_iff, ← own]
  exact ⟨isTainted_iff _ _, fun own t₂ run => isTainted_of_ownTaint (run.ownTaint whole₁ own)⟩

/-- A heap with an empty array, its method, and the functions that taint values and single characters of
them. -/
def arrayAndPush : Heap :=
  ⟨#[{ kind := .array [] }, { kind := .function { name := "push", native := some (.array .push) } },
    { kind := .function { name := "__jalangi_set_taint__" } },
    { kind := .function { name := "__jalangi_set_prop_taint__" } }]⟩

/-- A text that was tainted by one of the functions. -/
def textTaintedBy (f : ObjectId) (args : List Value) (settings : Settings) : Tracker :=
  (Session.run (Session.start settings ⟨#[]⟩) [.host arrayAndPush, .hook (.literal (.string "evil")),
    .hook (.callPre { f := .object f, base := .undefined, args := Session.firstShadow :: args, site := 1 })]).tracker

/-- The text is tainted as a whole. -/
def taintedText (settings : Settings) : Tracker := textTaintedBy 2 [] settings

/-- The first character of the text is tainted. -/
def taintedLetter (settings : Settings) : Tracker := textTaintedBy 3 [.string "0"] settings

/-- The value is pushed onto the array. -/
def pushOnto (v : Value) : Call :=
  { f := .object 1, base := .object 0, method := true, args := [v], site := 2 }

/-- The text is pushed, and then another one. The array stays tainted. -/
theorem taints_array_push : ∃ c₁ r₁ c₂ r₂,
    invoke (pushOnto Session.firstShadow) none (taintedText {}) =
      (.ok (c₁, r₁), after (pushOnto Session.firstShadow) (taintedText {})) ∧
    invoke (pushOnto (.string "good")) none (after (pushOnto Session.firstShadow) (taintedText {})) =
      (.ok (c₂, r₂), after (pushOnto (.string "good")) (after (pushOnto Session.firstShadow) (taintedText {}))) ∧
    (after (pushOnto (.string "good"))
      (after (pushOnto Session.firstShadow) (taintedText {}))).memory.isTainted (.object 0) = true := by
  obtain ⟨c₁, r₁, first⟩ := invoke_of_isOk (c := pushOnto Session.firstShadow) (t := taintedText {})
    (by decide +kernel)
  obtain ⟨c₂, r₂, second⟩ := invoke_of_isOk (c := pushOnto (.string "good"))
    (t := after (pushOnto Session.firstShadow) (taintedText {})) (by decide +kernel)
  have puts : (taintedText {}).Puts 0 Session.firstShadow true
      (after (pushOnto Session.firstShadow) (taintedText {})) := by
    have puts := Puts.push ⟨by decide +kernel, rfl, rfl⟩ List.mem_cons_self first
    rwa [show (pushOnto Session.firstShadow).args.any (taintedText {}).memory.taintBit = true by
      decide +kernel] at puts
  have stays := (taints_array_iff (Session.reachable_run (.start {} ⟨#[]⟩) _) (.inl (by decide +kernel))
    (by decide +kernel) (show _ = some (⟨0⟩, .string "evil") from rfl) (by decide +kernel) puts).2 (.inl rfl)
  exact ⟨c₁, r₁, c₂, r₂, first, second, stays _ (.push ⟨by decide +kernel, rfl, rfl⟩ second (.done _))⟩

/-- Where objects are not tracked as a whole, but arrays are. -/
def preciseObjects : Settings := { policies := ({} : Levels).set "object" .precise }

/-- A tainted text is stored into an array, where objects are not tracked as a whole, and one with a tainted
character is pushed, where everything is. Both operations succeed, and both arrays are untainted then. -/
theorem array_stays_clean :
    (Reachable (taintedText preciseObjects) ∧
      (taintedText preciseObjects).settings.policies.policyFor (taintedText preciseObjects).memory.heap
        (.object 0) = .container .array .imprecise ∧
      (taintedText preciseObjects).memory.isTainted Session.firstShadow = true ∧
      (storeField (.object 0) (.string "0") Session.firstShadow (taintedText preciseObjects)).1.isOk = true ∧
      (storeField (.object 0) (.string "0") Session.firstShadow
        (taintedText preciseObjects)).2.memory.isTainted (.object 0) = false) ∧
    Reachable (taintedLetter {}) ∧
      (taintedLetter {}).settings.policies.policyFor (taintedLetter {}).memory.heap (.object 0) =
        .container .array .imprecise ∧
      (taintedLetter {}).memory.isTainted Session.firstShadow = true ∧
      (invoke (pushOnto Session.firstShadow) none (taintedLetter {})).1.isOk = true ∧
      (after (pushOnto Session.firstShadow) (taintedLetter {})).memory.isTainted (.object 0) = false :=
  ⟨⟨Session.reachable_run (.start _ ⟨#[]⟩) _, by decide +kernel, by decide +kernel, by decide +kernel,
    by decide +kernel⟩, Session.reachable_run (.start _ ⟨#[]⟩) _, by decide +kernel, by decide +kernel,
    by decide +kernel, by decide +kernel⟩

end Tracker

end ShadowTaint
