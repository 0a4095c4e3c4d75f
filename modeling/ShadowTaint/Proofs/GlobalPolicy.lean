import ShadowTaint.Proofs.Findings
import ShadowTaint.Proofs.Pollution
import ShadowTaint.Proofs.Respelling
/-!
# What the policy of the global object governs

A value gets the policy of the global object if its class is that of the global object, however precisely the
classes are tracked. The global object has that class because of what it is. But classes have names, and the name
may also come from the module that an object was imported from, or from the constructor of a plain object. An object
may so pose as the global object, and stores into it are refused like those into the global object.

## Main definitions

- `Heap.SoleGlobal`: the global object is the only one of its kind.
- `Heap.PosesAsGlobal`: an object is named like the class of the global object.
- `Fault.SparesGlobal`: a fault does not report a store into the global object.

## Main statements

- `Levels.policyFor_eq_global_iff`: which values have the policy of the global object.
- `Deed.raises_sparesGlobal`: only a store that this policy governs is reported as one into the global object.
- `Hook.globalWrite_iff_store`: only stores into the global object and into objects that pose as it are reported so.
-/

namespace ShadowTaint

open Memory Tracker Policy

/-- Whether the class of an object of the kind has the name of the module that the object was imported from. -/
def ObjectKind.takesModuleName : ObjectKind → Bool
  | .plain _ | .array _ | .function _ | .objectPrototype => true
  | .map _ | .set _ | .global | .json => false

namespace Heap

variable {h h' : Heap} {id : ObjectId} {v : Value}

/-- The global object is the only one of its kind. -/
def SoleGlobal (h : Heap) : Prop := ∀ id, (h.get id).kind = .global ↔ id = Heap.global

theorem soleGlobal_initial : initial.SoleGlobal := by
  intro id
  match id with
  | 0 => exact ⟨fun _ => rfl, fun _ => rfl⟩
  | 1 => exact ⟨nofun, nofun⟩
  | 2 => exact ⟨nofun, nofun⟩
  | id + 3 =>
    rw [get_of_size_le initial (Nat.le_add_left 3 id)]
    exact ⟨nofun, nofun⟩

theorem SoleGlobal.inside (sole : h.SoleGlobal) : Heap.global < h.objects.size := by
  by_contra beyond
  have kind := (sole Heap.global).mpr rfl
  rw [get_of_size_le h (Nat.le_of_not_lt beyond)] at kind
  cases kind

/-- It stays so as objects of other kinds are added. -/
theorem SoleGlobal.alloc (sole : h.SoleGlobal) {o : HeapObject} (other : o.kind ≠ .global) :
    (h.alloc o).2.SoleGlobal := by
  intro id
  have inside := sole.inside
  rcases Nat.lt_trichotomy id h.objects.size with old | new | beyond
  · rw [get_alloc_of_lt h o old]
    exact sole id
  · rw [new, get_alloc_self]
    exact ⟨fun kind => absurd kind other, fun first => absurd inside (first ▸ Nat.lt_irrefl _)⟩
  · rw [get_alloc_of_gt h o beyond]
    exact ⟨nofun, fun first => absurd (Nat.lt_trans inside beyond) (first ▸ Nat.lt_irrefl _)⟩

theorem becomes_global_iff {k k' : ObjectKind} (becomes : k.Becomes k') : k' = .global ↔ k = .global := by
  cases k <;> cases k' <;> first | cases becomes; done | simp

/-- It stays so as objects change into what they can become. -/
theorem SoleGlobal.evolves (sole : h.SoleGlobal) (evolves : h.Evolves h')
    (size : h'.objects.size = h.objects.size) : h'.SoleGlobal := by
  intro id
  rw [← sole id]
  by_cases old : id < h.objects.size
  · exact becomes_global_iff (evolves.kind id old)
  · rw [get_of_size_le h (Nat.le_of_not_lt old), get_of_size_le h' (size ▸ Nat.le_of_not_lt old)]

/-- The class of an object has the name of the class of the global object, by the external module that the object was
imported from, or else by the constructor that the object has as a plain one. -/
def PosesAsGlobal (h : Heap) (v : Value) : Prop := ∃ id, v.object? = some id ∧
  ((∃ tag, (h.get id).importTag = some tag ∧ tag.isExternal = true ∧ tag.modulePath = "global" ∧
      (h.get id).kind.takesModuleName = true) ∨
    ∃ name, (h.get id).kind = .plain name ∧ Text.toLower name = "global" ∧
      ∀ tag, (h.get id).importTag = some tag → tag.isExternal = false)

end Heap

namespace ValueKind

theorem ofName_eq_global_iff {name : String} : ofName name = .global ↔ name = "global" := by
  constructor
  · intro same
    unfold ofName at same
    split at same <;> first | rfl | cases same
  · rintro rfl
    rfl

theorem ofImport?_of_object {h : Heap} {v : Value} {id : ObjectId} (object : v.object? = some id) :
    ofImport? h v = (h.get id).importTag.bind fun tag =>
      if tag.isExternal then some (ofName tag.modulePath) else none := by
  rw [ofImport?, Heap.importTag?, object, Option.bind_some]
  cases (h.get id).importTag <;> rfl

/-- The name of the constructor decides where no external module does. -/
theorem getD_eq_global_iff {h : Heap} {id : ObjectId} {other : ValueKind} :
    (ofImport? h (.object id)).getD other = .global ↔
      (∃ tag, (h.get id).importTag = some tag ∧ tag.isExternal = true ∧ tag.modulePath = "global") ∨
      other = .global ∧ ∀ tag, (h.get id).importTag = some tag → tag.isExternal = false := by
  rw [ofImport?_of_object rfl]
  rcases (h.get id).importTag with _ | tag
  · simp
  · rcases external : tag.isExternal
    · simp [external]
    · simp [external, ofName_eq_global_iff]

/-- A value has the class of the global object if it is of its kind, or if it poses as it. -/
theorem of_eq_global_iff {h : Heap} {v : Value} : of h v = .global ↔
    (∃ id, v.object? = some id ∧ (h.get id).kind = .global) ∨ h.PosesAsGlobal v := by
  cases v with
  | literal l =>
    refine ⟨fun same => ?_, ?_⟩
    · cases l <;> cases same
    · rintro (⟨_, impossible, -⟩ | ⟨_, impossible, -⟩)
      · cases impossible
      · cases impossible
  | shadow handle identity l =>
    refine ⟨fun same => ?_, ?_⟩
    · cases l <;> cases same
    · rintro (⟨_, impossible, -⟩ | ⟨_, impossible, -⟩)
      · cases impossible
      · cases impossible
  | object id =>
    have here (P : ObjectId → Prop) : (∃ other, (Value.object id).object? = some other ∧ P other) ↔ P id :=
      ⟨fun ⟨_, same, holds⟩ => Option.some.inj same ▸ holds, fun holds => ⟨id, rfl, holds⟩⟩
    have array : Text.toLower "Array" = "array" := by decide +kernel
    have object : Text.toLower "Object" = "object" := by decide +kernel
    rw [here, Heap.PosesAsGlobal, here, of]
    dsimp only [Value.raw]
    rcases kind : (h.get id).kind with name | elements | entries | members | f | - | - | -
    · dsimp only
      rw [getD_eq_global_iff, ofName_eq_global_iff, Heap.constructorName, kind]
      simp [ObjectKind.takesModuleName]
    · dsimp only
      rw [getD_eq_global_iff, ofName_eq_global_iff, Heap.constructorName, kind, array]
      simp [ObjectKind.takesModuleName]
    · simp [ObjectKind.takesModuleName]
    · simp [ObjectKind.takesModuleName]
    · dsimp only
      rw [getD_eq_global_iff]
      simp [ObjectKind.takesModuleName]
    · simp
    · dsimp only
      rw [getD_eq_global_iff, ofName_eq_global_iff, Heap.constructorName, kind, object]
      simp [ObjectKind.takesModuleName]
    · simp [ObjectKind.takesModuleName]

end ValueKind

theorem Policy.registered?_eq_global_iff {kind : ValueKind} {level : Precision} :
    registered? kind level = some .global ↔ kind = .global ∧ level = .default := by
  constructor
  · intro same
    unfold registered? at same
    split at same <;> cases same
    exact ⟨rfl, rfl⟩
  · rintro ⟨rfl, rfl⟩
    rfl

namespace Levels

/-- Whatever is configured, the class of the global object has the policy of its own, and no other class has it. -/
theorem resolve_eq_global_iff {levels : Levels} {kind : ValueKind} :
    levels.resolve kind = .global ↔ kind = .global := by
  constructor
  · intro same
    obtain ⟨level, registered, -⟩ := registered_of_resolve same nofun
    exact (registered?_eq_global_iff.mp registered).1
  · rintro rfl
    rw [resolve]
    cases levels.precision .global <;> rfl

/-- The global object has the policy of global objects, and so has what poses as it. -/
theorem policyFor_eq_global_iff {levels : Levels} {h : Heap} (sole : h.SoleGlobal) {v : Value} :
    levels.policyFor h v = .global ↔ v.object? = some Heap.global ∨ h.PosesAsGlobal v := by
  rw [policyFor, resolve_eq_global_iff, ValueKind.of_eq_global_iff]
  refine or_congr_left ⟨?_, fun object => ⟨_, object, (sole _).mpr rfl⟩⟩
  rintro ⟨id, object, kind⟩
  rwa [← (sole id).mp kind]

end Levels

/-- The fault does not report a store into the global object. -/
def Fault.SparesGlobal (e : Fault) : Prop := ∀ f shown, e = .finding f → f.kind ≠ .globalWrite shown

theorem Fault.Silent.sparesGlobal {e : Fault} (silent : e.Silent) : e.SparesGlobal := by
  rintro f shown rfl
  cases silent

theorem Fault.OfGhost.sparesGlobal {e : Fault} (ofGhost : e.OfGhost) : e.SparesGlobal := by
  rintro f shown rfl same
  rw [show f.kind = .taintedArgument from ofGhost] at same
  cases same

/-- Only a store that the policy of the global object governs is reported as one into the global object. -/
theorem Deed.raises_sparesGlobal (levels : Levels) {d : Deed} (other : ∀ ops, d ≠ .store .global ops) :
    Raises Fault.SparesGlobal (d.run levels) := by
  have report {kind : FindingKind} (v : Value) (spares : ∀ shown, kind ≠ .globalWrite shown) :
      Raises Fault.SparesGlobal (do throw (.finding { kind, paths := [← MemoryM.history v] }) : CheckedM Unit) := by
    refine .bind (.lift _) fun path => .throw ?_
    rintro f shown same
    cases same
    exact spares shown
  have object (grain : Grain) (ops : Operands) : Raises Fault.SparesGlobal (ObjectRule.putField grain ops) := by
    refine .bind (.bind .get fun m => ?_) fun _ => ?_
    · dsimp only
      split
      · exact report _ nofun
      · exact .pure _
    · cases grain with
      | precise => exact .pure _
      | imprecise =>
        exact .bind .get fun m => .bind (.lift _) fun _ => .bind (.lift _) fun _ => .bind (.lift _) fun _ => .lift _
  cases d with
  | store policy ops =>
    cases policy with
    | global => exact absurd rfl (other ops)
    | _ => exact object _ ops
  | evaluate code sink maxLength =>
    refine .bind (.lift _) fun _ => .bind .get fun m => ?_
    dsimp only
    split
    · exact report _ nofun
    · exact .pure _
  | _ => exact .lift _

namespace Tracker

/-- The hook before a call reports tainted arguments only. -/
theorem raises_callPreBody (c : Call) (native : Bool) : Raises Fault.SparesGlobal (callPreBody c native) := by
  have silent {α : Type} {x : CheckedM α} (raises : Raises Fault.Silent x) :
      Raises Fault.SparesGlobal (HookM.onMemory x) := (raises.mono fun _ => Fault.Silent.sparesGlobal).onMemory
  refine .bind ?_ fun _ => .bind .get fun t => ?_
  · refine (raises_checkCall c).mono ?_
    rintro _ ⟨name, indices, paths, rfl⟩ f shown ⟨⟩
    nofun
  · split
    · exact silent (calm_openCall _ c native).raises
    · exact .bind (silent (CheckedM.calm_expectIdle _).raises) fun _ =>
        .bind ((Ghost.modest_run _ _).raises.mono fun _ => Fault.OfGhost.sparesGlobal) fun _ => .pure _

/-- Wrapping the operands of a store leaves all policies as they are, and the base is the same object. -/
theorem storeOperands_inv {base offset v : Value} {levels : Levels} {m m' : Memory} {ops : Operands}
    (run : storeOperands base offset v levels m = (.ok ops, m')) :
    m.Settles levels m' ∧ ops.base.raw = base.raw := by
  unfold storeOperands at run
  rw [get_bind_apply, lift_bind_apply, lift_bind_apply, lift_bind_apply] at run
  obtain ⟨_, m₄, checked, returned⟩ := bind_eq_ok.mp run
  have same := CheckedM.checkPending_snd "WPutField" 0
    (MemoryM.wrap levels base (MemoryM.wrap levels offset
      (MemoryM.restoreStored levels (levels.policyFor m.heap base) v m).2).2).2
  rw [checked] at same
  cases same
  cases returned
  exact ⟨((MemoryM.settles_restoreStored levels _ v m).trans (MemoryM.settles_wrap levels offset _)).trans
    (MemoryM.settles_wrap levels base _), MemoryM.raw_wrap levels base _⟩

end Tracker

theorem ValueKind.of_raw (h : Heap) (v : Value) : of h v.raw = of h v := by
  cases v <;> rfl

/-- What has the policy of the global object behind a shadow has it without one. -/
theorem Levels.policyFor_of_valueOf {levels : Levels} {m : Memory} {h : Heap} {v : Value}
    (global : levels.policyFor h (m.valueOf v) = .global) : levels.policyFor h v = .global := by
  rw [policyFor, resolve_eq_global_iff] at global ⊢
  rw [valueOf, ShadowState.valueOf] at global
  split at global
  · rename_i raw _
    cases raw <;> cases global
  · rwa [ValueKind.of_raw] at global

/-- A hook that reports a store into the global object is the hook of a store, and the policy of the global object
governs what is stored into. -/
theorem Hook.store_of_globalWrite (h : Hook) {t : Tracker} {f : Finding} {shown : String}
    (found : (h.run t).1 = .error (.finding f)) (kind : f.kind = .globalWrite shown) :
    ∃ base offset v, h = .putField base offset v ∧
      t.settings.policies.policyFor t.memory.heap base = .global := by
  by_cases other : ∀ c, h ≠ .callPre c
  · rcases h.idles_or_does other t with ⟨d, m, does⟩ | idles
    · obtain ⟨-, ends⟩ := does.run
      have ran := ends.finding f found
      by_cases governed : ∃ ops, d = .store .global ops
      · obtain ⟨ops', step⟩ := governed
        cases does with
        | @store base offset v ops m run =>
          obtain ⟨settles, raw⟩ := storeOperands_inv run
          have policy := Levels.policyFor_of_valueOf (Deed.store.inj step).1
          refine ⟨base, offset, v, rfl, ?_⟩
          rwa [settles.policy, Levels.policyFor, ← ValueKind.of_raw, raw, ValueKind.of_raw] at policy
        | _ => cases step
      · have spares := Deed.raises_sparesGlobal t.settings.policies (d := d) fun ops same => governed ⟨ops, same⟩
        exact absurd kind (spares m _ _ (Prod.ext ran rfl) f shown rfl)
    · exact absurd found (idles.silent f)
  · obtain ⟨c, rfl⟩ : ∃ c, h = .callPre c := by simpa using other
    obtain ⟨c', native, t₀, t', -, -, run, -⟩ := run_callPre c t
    rw [run] at found
    exact absurd kind (raises_callPreBody c' native t₀ _ _ (Prod.ext (error_of_map found) rfl) f shown rfl)

/-- Where the global object is the only one of its kind, the policy of global objects governs it and what poses as
it, whatever is configured; and only stores into these are reported as stores into the global object. -/
theorem Heap.SoleGlobal.governed {h : Heap} (sole : h.SoleGlobal) :
    (∀ (levels : Levels) v, levels.policyFor h v = .global ↔
      v.object? = some Heap.global ∨ h.PosesAsGlobal v) ∧
    ∀ (hook : Hook) (t : Tracker), t.memory.heap = h → ∀ f shown,
      (hook.run t).1 = .error (.finding f) → f.kind = .globalWrite shown →
      ∃ base offset v, hook = .putField base offset v ∧
        (base.object? = some Heap.global ∨ h.PosesAsGlobal base) := by
  refine ⟨fun levels v => Levels.policyFor_eq_global_iff sole, ?_⟩
  rintro hook t rfl f shown found kind
  obtain ⟨base, offset, v, store, policy⟩ := hook.store_of_globalWrite found kind
  exact ⟨base, offset, v, store, (Levels.policyFor_eq_global_iff sole).mp policy⟩

namespace Session

/-- A heap with a function that taints values, an object of a class that is named Global, and one that was imported
from a dependency that is named global. -/
def withNamesakes : Heap :=
  (((Heap.initial.allocScript "__jalangi_set_taint__").2.allocPlain "Global").2.allocPlain "Object").2.setImportTag 5
    (.classify "global")

theorem soleGlobal_withNamesakes : withNamesakes.SoleGlobal := by
  have allocated := ((Heap.soleGlobal_initial.alloc
    (o := { kind := .function { name := "__jalangi_set_taint__" } }) nofun).alloc
    (o := { kind := .plain "Global" }) nofun).alloc (o := { kind := .plain "Object" }) nofun
  exact allocated.evolves (Heap.evolves_setImportTag _ 5 _) (Heap.size_modify _ 5 _)

/-- The tracker when a string was tainted and is about to be stored into an object. -/
def storing (base : Value) : Tracker :=
  (run (start {} ⟨#[]⟩) [.host withNamesakes, .hook (.literal (.string "evil")),
    .hook (.callPre { f := .object 3, base := .undefined, args := [evil], site := 0 }),
    .hook (.putFieldPre base (.string "k") evil)]).tracker

/-- The store into the global object is reported, and it is one into the global object. -/
theorem governed_global : withNamesakes.SoleGlobal ∧
    (storing (.object Heap.global)).memory.heap = withNamesakes ∧
    (∃ f, ((Hook.putField (.object Heap.global) (.string "k") evil).run (storing (.object Heap.global))).1 =
        .error (.finding f) ∧ f.kind = .globalWrite "evil") ∧
    ∃ base offset v, Hook.putField (.object Heap.global) (.string "k") evil = .putField base offset v ∧
      (base.object? = some Heap.global ∨ withNamesakes.PosesAsGlobal base) := by
  obtain ⟨-, stores⟩ := Heap.SoleGlobal.governed soleGlobal_withNamesakes
  have found : ∃ f, ((Hook.putField (.object Heap.global) (.string "k") evil).run
      (storing (.object Heap.global))).1 = .error (.finding f) ∧ f.kind = .globalWrite "evil" :=
    ⟨_, rfl, rfl⟩
  obtain ⟨f, ran, kind⟩ := found
  exact ⟨soleGlobal_withNamesakes, rfl, ⟨f, ran, kind⟩, stores _ _ rfl f "evil" ran kind⟩

/-- Both namesakes have the policy of the global object, and stores into them are reported as stores into the global
object. -/
theorem namesakes_governed : withNamesakes.SoleGlobal ∧ ∀ id : ObjectId, id = 4 ∨ id = 5 →
    (Value.object id).object? ≠ some Heap.global ∧
    ({} : Levels).policyFor withNamesakes (.object id) = .global ∧
    Reachable (storing (.object id)) ∧ (storing (.object id)).memory.heap = withNamesakes ∧
    ∃ f, ((Hook.putField (.object id) (.string "k") evil).run (storing (.object id))).1 = .error (.finding f) ∧
      f.kind = .globalWrite "evil" := by
  refine ⟨soleGlobal_withNamesakes, ?_⟩
  rintro id (rfl | rfl)
  · exact ⟨by decide, by decide +kernel, reachable_run (.start {} ⟨#[]⟩) _, rfl, _, rfl, rfl⟩
  · exact ⟨by decide, by decide +kernel, reachable_run (.start {} ⟨#[]⟩) _, rfl, _, rfl, rfl⟩

end Session

end ShadowTaint
