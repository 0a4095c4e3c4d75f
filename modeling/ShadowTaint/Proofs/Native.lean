import ShadowTaint.Proofs.Heap
/-!
# What native functions do to a heap

A native function only adds objects to a heap and changes the contents of those that are there. It
returns, and leaves on the heap, bare values and values that it was given or found.

## Main statements

- `Native.run_confined`: every native function is confined in this sense.
-/

namespace ShadowTaint

/-- An outcome of a native function on a heap and some values: objects stay what they are, and every
property of values that holds of bare values, of those on the heap and of those that were given
holds of what is returned and of what lies on the heap afterwards. -/
def NativeResult.Confined (h : Heap) (given : List Value) (r : NativeResult) : Prop :=
  ∀ v h', r = .ok (v, h') → h.Evolves h' ∧
    ∀ P : Value → Prop, (∀ w : Value, w.raw = w → P w) → h.Holding P → (∀ w ∈ given, P w) →
      P v ∧ h'.Holding P

namespace NativeResult

variable {h : Heap} {given : List Value}

theorem confined_error (e : NativeError) : Confined h given (.error e) :=
  fun _ _ hr => nomatch hr

theorem confined_ok {v : Value} {h' : Heap} (ev : h.Evolves h')
    (holding : ∀ P : Value → Prop, (∀ w : Value, w.raw = w → P w) → h.Holding P →
      (∀ w ∈ given, P w) → P v ∧ h'.Holding P) : Confined h given (.ok (v, h')) := by
  intro w h'' hr
  cases hr
  exact ⟨ev, holding⟩

/-- A function that returns a bare value and leaves the heap alone is confined. -/
theorem confined_bare {v : Value} (hv : v.raw = v) : Confined h given (.ok (v, h)) :=
  confined_ok (.refl h) fun _ bare hh _ => ⟨bare v hv, hh⟩

/-- A function that returns a new object is confined if the object holds only what was given or
found. -/
theorem confined_allocKind {kind : ObjectKind}
    (hk : ∀ P : Value → Prop, (∀ w : Value, w.raw = w → P w) → h.Holding P →
      (∀ w ∈ given, P w) → kind.Holding P) : Confined h given (.ok (h.allocKind kind)) :=
  confined_ok (h.evolves_allocKind kind) fun P bare hh hg =>
    ⟨bare _ rfl, hh.allocKind (hk P bare hh hg)⟩

theorem Confined.mono {given' : List Value} {r : NativeResult} (hr : Confined h given r)
    (sub : ∀ P : Value → Prop, (∀ w : Value, w.raw = w → P w) → h.Holding P →
      (∀ w ∈ given', P w) → ∀ w ∈ given, P w) : Confined h given' r := by
  intro v h' hv
  obtain ⟨ev, holding⟩ := hr v h' hv
  exact ⟨ev, fun P bare hh hg => holding P bare hh (sub P bare hh hg)⟩

end NativeResult

open NativeResult

theorem StringMethod.invoke_confined (m : StringMethod) (h : Heap) (this : Value)
    (args : List Value) : Confined h (this :: args) (m.invoke h this args) := by
  unfold StringMethod.invoke
  split
  · exact confined_error _
  · split
    · exact confined_error _
    · exact confined_bare rfl
    · refine confined_allocKind fun P bare _ _ v hv => ?_
      obtain ⟨cs, -, rfl⟩ := List.mem_map.mp hv
      exact bare _ rfl

theorem ArrayMethod.invoke_confined (m : ArrayMethod) (h : Heap) (this : Value)
    (args : List Value) : Confined h (this :: args) (m.invoke h this args) := by
  unfold ArrayMethod.invoke
  split
  · exact confined_error _
  · rename_i elements found
    cases m with
    | join => exact confined_bare rfl
    | push =>
      refine confined_ok (h.evolves_setElements _ _) fun P bare hh hg => ⟨bare _ rfl, ?_⟩
      refine hh.setElements _ fun v hv => ?_
      rcases List.mem_append.mp hv with hv | hv
      · exact hh.elements? found v hv
      · exact hg v (List.mem_cons_of_mem _ hv)

theorem holding_putEntryUnder {P : Value → Prop} {key v : Value} {entries : List (Value × Value)}
    (he : ∀ e ∈ entries, P e.1 ∧ P e.2) (hkey : P key) (hv : P v) :
    ∀ e ∈ putEntryUnder key v entries, P e.1 ∧ P e.2 := by
  induction entries with
  | nil =>
    intro e mem
    rw [putEntryUnder, List.mem_singleton] at mem
    subst mem
    exact ⟨hkey, hv⟩
  | cons first rest ih =>
    obtain ⟨k, w⟩ := first
    intro e mem
    have head := he (k, w) List.mem_cons_self
    rw [putEntryUnder] at mem
    split at mem
    · rcases List.mem_cons.mp mem with rfl | mem
      · exact ⟨head.1, hv⟩
      · exact he e (List.mem_cons_of_mem _ mem)
    · rcases List.mem_cons.mp mem with rfl | mem
      · exact head
      · exact ih (fun e mem => he e (List.mem_cons_of_mem _ mem)) e mem

theorem holding_entryUnder {P : Value → Prop} {key v : Value} {entries : List (Value × Value)}
    (he : ∀ e ∈ entries, P e.1 ∧ P e.2) (hv : entryUnder? key entries = some v) : P v := by
  induction entries with
  | nil => cases hv
  | cons first rest ih =>
    obtain ⟨k, w⟩ := first
    rw [entryUnder?] at hv
    split at hv
    · cases hv
      exact (he (k, v) List.mem_cons_self).2
    · exact ih (fun e mem => he e (List.mem_cons_of_mem _ mem)) hv

/-- An argument that may be missing has a property that the arguments and bare values have. -/
theorem holds_getD {P : Value → Prop} (bare : ∀ w : Value, w.raw = w → P w) {args : List Value}
    (hargs : ∀ w ∈ args, P w) (i : Nat) : P (args.getD i .undefined) := by
  rw [List.getD_eq_getElem?_getD]
  rcases hi : args[i]? with _ | v
  · exact bare _ rfl
  · exact hargs v (List.mem_of_getElem? hi)

theorem holds_headD {P : Value → Prop} (bare : ∀ w : Value, w.raw = w → P w) {args : List Value}
    (hargs : ∀ w ∈ args, P w) : P (args.headD .undefined) := by
  cases args with
  | nil => exact bare _ rfl
  | cons v rest => exact hargs v List.mem_cons_self

theorem MapMethod.invoke_confined (m : MapMethod) (h : Heap) (this : Value)
    (args : List Value) : Confined h (this :: args) (m.invoke h this args) := by
  unfold MapMethod.invoke
  split
  · exact confined_error _
  · rename_i id entries found
    cases m with
    | get =>
      refine confined_ok (.refl h) fun P bare hh _ => ⟨?_, hh⟩
      rcases he : entryUnder? (args.headD .undefined) entries with _ | v
      · exact bare _ rfl
      · exact holding_entryUnder (hh.mapEntries? found) he
    | set =>
      refine confined_ok (h.evolves_setKind ?_) fun P bare hh hg => ⟨hg _ List.mem_cons_self, ?_⟩
      · unfold Heap.mapEntries? at found
        split at found
        · cases found
        · split at found
          · rename_i hkind
            cases found
            rw [hkind]
            trivial
          · cases found
      · have hargs : ∀ w ∈ args, P w := fun w hw => hg w (List.mem_cons_of_mem _ hw)
        exact hh.setKind id (holding_putEntryUnder (hh.mapEntries? found)
          (holds_headD bare hargs) (holds_getD bare hargs 1))

theorem SetMethod.invoke_confined (m : SetMethod) (h : Heap) (this : Value)
    (args : List Value) : Confined h (this :: args) (m.invoke h this args) := by
  unfold SetMethod.invoke
  split
  · exact confined_error _
  · rename_i id members found
    cases m with
    | add =>
      dsimp only
      split
      · exact confined_ok (.refl h) fun P _ hh hg => ⟨hg _ List.mem_cons_self, hh⟩
      · refine confined_ok (h.evolves_setKind ?_) fun P bare hh hg =>
          ⟨hg _ List.mem_cons_self, hh.setKind id fun w hw => ?_⟩
        · unfold Heap.setMembers? at found
          split at found
          · cases found
          · split at found
            · rename_i hkind
              cases found
              rw [hkind]
              trivial
            · cases found
        · rcases List.mem_append.mp hw with hw | hw
          · exact hh.setMembers? found w hw
          · rw [List.mem_singleton.mp hw]
            exact holds_headD bare fun w hw => hg w (List.mem_cons_of_mem _ hw)
    | values => exact confined_allocKind fun P _ hh _ => hh.setMembers? found

theorem ProcessMethod.invoke_confined (m : ProcessMethod) (h : Heap) (given : List Value) :
    Confined h given (m.invoke h) := by
  cases m with
  | exec => exact confined_bare rfl
  | execFile => exact confined_bare rfl
  | execSync => exact confined_bare rfl
  | spawn => exact confined_allocKind fun _ _ _ _ => trivial
  | spawnSync => exact confined_allocKind fun _ _ _ _ => trivial

theorem HostBehaviour.invoke_confined (b : HostBehaviour) (h : Heap) (this : Value)
    (args : List Value) : Confined h (this :: args) (b.invoke h this args) := by
  cases b with
  | nothing => exact confined_bare rfl
  | receiver => exact confined_ok (.refl h) fun P _ hh hg => ⟨hg _ List.mem_cons_self, hh⟩
  | firstArgument =>
    exact confined_ok (.refl h) fun P bare hh hg =>
      ⟨holds_headD bare fun w hw => hg w (List.mem_cons_of_mem _ hw), hh⟩
  | argumentCount => exact confined_bare rfl
  | argumentArray =>
    exact confined_allocKind fun P _ _ hg w hw => hg w (List.mem_cons_of_mem _ hw)
  | failing => exact confined_error _

/-- A function that calls its receiver passes on what it was given, or the elements of an array. -/
theorem Native.runWithin_confined (h : Heap) (depth : Nat) (n : Native) (this : Value)
    (args : List Value) : Confined h (this :: args) (n.runWithin h depth this args) := by
  -- on the depth, which only `call` and `apply` use up
  induction depth generalizing n this args with
  | zero =>
    cases n with
    | string m => exact m.invoke_confined h this args
    | array m => exact m.invoke_confined h this args
    | map m => exact m.invoke_confined h this args
    | set m => exact m.invoke_confined h this args
    | process m => exact m.invoke_confined h _
    | host b => exact b.invoke_confined h this args
    | construct => exact confined_allocKind fun _ _ _ _ => trivial
    | unavailable => exact confined_error _
    | call => exact confined_error _
    | apply => exact confined_error _
  | succ depth ih =>
    cases n with
    | string m => exact m.invoke_confined h this args
    | array m => exact m.invoke_confined h this args
    | map m => exact m.invoke_confined h this args
    | set m => exact m.invoke_confined h this args
    | process m => exact m.invoke_confined h _
    | host b => exact b.invoke_confined h this args
    | construct => exact confined_allocKind fun _ _ _ _ => trivial
    | unavailable => exact confined_error _
    | call =>
      rw [Native.runWithin]
      split
      · exact confined_error _
      · refine (ih _ _ _).mono fun P bare _ hg w hw => ?_
        have hargs : ∀ w ∈ args, P w := fun w hw => hg w (List.mem_cons_of_mem _ hw)
        rcases List.mem_cons.mp hw with rfl | hw
        · exact holds_headD bare hargs
        · exact hargs w (List.mem_of_mem_tail hw)
    | apply =>
      rw [Native.runWithin]
      split
      · exact confined_error _
      · refine (ih _ _ _).mono fun P bare hh hg w hw => ?_
        have hargs : ∀ w ∈ args, P w := fun w hw => hg w (List.mem_cons_of_mem _ hw)
        rcases List.mem_cons.mp hw with rfl | hw
        · exact holds_headD bare hargs
        · rcases he : args[1]?.bind h.elements? with _ | elements
          · rw [he] at hw
            exact nomatch hw
          · rw [he] at hw
            obtain ⟨array, -, found⟩ := Option.bind_eq_some_iff.mp he
            exact hh.elements? found w hw

/-- Native functions are confined. -/
theorem Native.run_confined (n : Native) (h : Heap) (this : Value) (args : List Value) :
    Confined h (this :: args) (n.run h this args) :=
  n.runWithin_confined h _ this args

end ShadowTaint
