import ShadowTaint.Proofs.Handover
/-!
# Hooks that keep identities apart

Every hook leaves identities that can be marked as those of strings or of other literals, if a hook after
an operation gets what the hook before it has returned and finds reserved what that one has reserved.

## Main definitions

- `HookM.SortsFrom`: what an action of hooks leaves.
- `Paired.Entrusted`: what the hook before an operation leaves to the hook after it.
- `Paired.Intact`: the host leaves alone what an external call is called on.

## Main statements

- `Paired.sorts_before`, `Paired.sorts_after`: the hooks of operations.
- `Paired.Entrusted.awaited`: the hook after an operation gets what it needs.
-/

namespace ShadowTaint

open Memory Tracker

namespace HookM

variable {α β : Type} {t : Tracker} {kinds : List Bool} {Q : α → List Bool → Memory → Prop}
  {R : β → List Bool → Memory → Prop}

/-- From the tracker on the action leaves identities that can be marked, and the condition holds of what
it returns. -/
def SortsFrom (t : Tracker) (kinds : List Bool) (x : HookM α) (Q : α → List Bool → Memory → Prop) :
    Prop :=
  ∃ kinds', kinds <+: kinds' ∧ (x t).2.memory.Sorted kinds' ∧
    ∀ a, (x t).1 = .ok a → Q a kinds' (x t).2.memory

namespace SortsFrom

theorem onMemory {P : List Bool → Memory → Prop} {x : CheckedM α} (h : SortsIfOk P x Q)
    (sorted : t.memory.Sorted kinds) (holds : P kinds t.memory) :
    SortsFrom t kinds (HookM.onMemory x) Q := h kinds t.memory sorted holds

/-- An action after which identities can be marked however they were marked before. -/
theorem of_adopts {x : HookM α} (adopts : t.memory.Adopts (x t).2.memory)
    (sorted : t.memory.Sorted kinds) : SortsFrom t kinds x fun _ => Freely := by
  obtain ⟨kinds', more, sorted'⟩ := adopts kinds sorted
  exact ⟨kinds', more, sorted', fun _ _ => trivial⟩

/-- An action that leaves the memory as it is. -/
theorem of_same {P : List Bool → Memory → Prop} {x : HookM α} (same : (x t).2.memory = t.memory)
    (sorted : t.memory.Sorted kinds) (holds : P kinds t.memory) : SortsFrom t kinds x fun _ => P := by
  refine ⟨kinds, List.prefix_refl kinds, ?_, fun _ _ => ?_⟩
  · rwa [same]
  · rwa [same]

/-- What the action leaves can be marked, whether or not it fails. -/
theorem marked {x : HookM α} (h : SortsFrom t kinds x Q) :
    ∃ kinds', kinds <+: kinds' ∧ (x t).2.memory.Sorted kinds' := by
  obtain ⟨kinds', more, sorted, -⟩ := h
  exact ⟨kinds', more, sorted⟩

protected theorem pure {a : α} (sorted : t.memory.Sorted kinds) (holds : Q a kinds t.memory) :
    SortsFrom t kinds (pure a : HookM α) Q := by
  refine ⟨kinds, List.prefix_refl kinds, sorted, fun b ok => ?_⟩
  cases ok
  exact holds

protected theorem bind {x : HookM α} {f : α → HookM β} (hx : SortsFrom t kinds x Q)
    (hf : ∀ a t' kinds', x t = (.ok a, t') → kinds <+: kinds' → t'.memory.Sorted kinds' →
      Q a kinds' t'.memory → SortsFrom t' kinds' (f a) R) : SortsFrom t kinds (x >>= f) R := by
  obtain ⟨kinds₁, more₁, sorted₁, holds⟩ := hx
  rcases run : x t with ⟨e | a, t₁⟩
  · rw [run] at sorted₁
    rw [SortsFrom, bind_apply_error run]
    exact ⟨kinds₁, more₁, sorted₁, fun _ impossible => nomatch impossible⟩
  · rw [run] at sorted₁ holds
    obtain ⟨kinds₂, more₂, after⟩ := hf a t₁ kinds₁ run more₁ sorted₁ (holds a rfl)
    rw [SortsFrom, bind_apply_ok run]
    exact ⟨kinds₂, more₁.trans more₂, after⟩

/-- A second action that only computes. -/
theorem map {x : HookM α} {g : α → β} (hx : SortsFrom t kinds x Q)
    (imp : ∀ a kinds m, Q a kinds m → R (g a) kinds m) :
    SortsFrom t kinds (x >>= fun a => pure (g a)) R :=
  hx.bind fun _ _ _ _ _ sorted holds => .pure sorted (imp _ _ _ holds)

protected theorem get_bind {f : Tracker → HookM α} (hf : SortsFrom t kinds (f t) Q) :
    SortsFrom t kinds (get >>= f) Q := hf

/-- A hook leaves what its body leaves, if that does not depend on what was left for the next hook. -/
theorem hook {name : String} {operands : Tracker → List (String × String)} {body : HookM α}
    (ends : ∀ a kinds m, Q a kinds m → Q a kinds m.ended)
    (h : ∀ t₀, t.Logs t₀ → SortsFrom t₀ kinds body Q) :
    SortsFrom t kinds (HookM.hook name operands body) Q := by
  obtain ⟨t₀, t', logs, run, ended⟩ := hook_run name operands body t
  obtain ⟨kinds', more, sorted, holds⟩ := h t₀ logs
  have memory : t'.memory = (body t₀).2.memory.ended := ended.memory
  rw [SortsFrom, run, memory]
  exact ⟨kinds', more, sorted.congr rfl rfl, fun a ok => ends a kinds' _ (holds a ok)⟩

/-- A hook whose body works on the memory only. -/
theorem memoryHook {P : List Bool → Memory → Prop} {name : String}
    {operands : Tracker → List (String × String)} {body : Levels → CheckedM α}
    (h : SortsIfOk P (body t.settings.policies) Q)
    (ends : ∀ a kinds m, Q a kinds m → Q a kinds m.ended) (sorted : t.memory.Sorted kinds)
    (holds : P kinds t.memory) : SortsFrom t kinds (HookM.memoryHook name operands body) Q :=
  hook ends fun _ logs => .get_bind <| .onMemory (logs.settings ▸ h) (logs.memory ▸ sorted)
    (logs.memory ▸ holds)

end SortsFrom

end HookM

/-- The relation admits the rules for native functions if it admits what they hand out. -/
theorem Memory.admitsRules_adopts : AdmitsRules Adopts where
  marks _ _ := Marks.adopts
  fresh := MemoryM.adopts_wrapFresh
  elements _ _ _ _ := .of_same rfl rfl
  runs _ _ _ _ _ _ _ _ := .of_same rfl rfl

namespace Tracker

open HookM

variable {t : Tracker} {kinds : List Bool}

theorem marks_checkCall (c : Call) : Within (Follows Marks) (checkCall c) := by
  intro t
  rcases checkCall_passes c t with ⟨t', run, marks⟩ | ⟨f, t', run, marks⟩
  · rwa [run]
  · rwa [run]

theorem Follows.adopts {t' : Tracker} (h : Follows Marks t t') : t.memory.Adopts t'.memory :=
  h.memory.adopts

/-- The hook before a call hands over marked identities, unless a ghost function was called. -/
theorem sorts_callPreBody (c : Call) (native : Bool) (sorted : t.memory.Sorted kinds) :
    SortsFrom t kinds (callPreBody c native) fun q kinds' m =>
      t.ghostOf? c = none → t.memory.Entrusts t.settings.policies q kinds' m := by
  refine (SortsFrom.of_adopts (marks_checkCall c t).adopts sorted).bind
    fun _ t₁ kinds₁ checked more sorted₁ _ => .get_bind ?_
  have marks : Follows Marks t t₁ := (marks_checkCall c).of_apply checked
  rcases called : t₁.ghostOf? c with _ | ghost
  · have opens : SortsIfOk (fun _ m => m.heap = t.memory.heap) (openCall c native t₁.settings.policies)
        fun q => t.memory.Entrusts t₁.settings.policies q := sorts_openCall _ _ c native
    obtain ⟨kinds', more, sorted', holds⟩ := SortsFrom.onMemory opens sorted₁ marks.memory.heap
    exact ⟨kinds', more, sorted', fun q ok _ => marks.settings ▸ holds q ok⟩
  · have idle := SortsFrom.onMemory (CheckedM.sorts_expectIdle "WGhostCall") sorted₁ trivial
    refine idle.bind fun _ t₂ kinds₂ _ _ sorted₂ _ => ?_
    have runs := ((Ghost.modest_run ghost c.args).marks t₂).adopts
    refine (SortsFrom.of_adopts runs sorted₂).bind fun _ _ _ _ _ sorted₃ _ => .pure sorted₃ fun real => ?_
    rw [ghostOf?_of_marks marks, real] at called
    cases called

theorem sorts_callPre (c : Call) (sorted : t.memory.Sorted kinds) :
    SortsFrom t kinds (callPre c) fun q kinds' m =>
      t.ghostOf? c = none → t.memory.Entrusts t.settings.policies q kinds' m := by
  refine .get_bind <| .hook (fun _ _ _ entrusts real => (entrusts real).ended) fun t₀ logs => ?_
  have body := sorts_callPreBody (t := t₀) (t.placed c) (t.memory.isNativeCall (t.placed c))
    (logs.memory ▸ sorted)
  have same : t₀.ghostOf? (t.placed c) = t.ghostOf? c := by
    rw [ghostOf?, ghostOf?, logs.ghosts, logs.memory]
    rfl
  rwa [same, logs.memory, logs.settings] at body

theorem adopts_concludeCall (c : Call) (native : Bool) (r : Call × Value) :
    Within (Follows Adopts) (concludeCall c native t r) := by
  refine within_concludeCall (fun _ _ _ => ?_) (fun c result => ?_) c native t r
  · exact follows_onMemory (.lift (within_propagateCall admitsRules_adopts _ _ _))
  · refine .bind_except .get_except fun t => ?_
    dsimp only
    split
    · exact .bind_except (follows_logEvent _) fun _ =>
        follows_onMemory (.lift fun _ => .of_same rfl rfl)
    · exact .pure_except _

/-- The hook after a call needs to find the frame that was saved for it, unless it is one of a ghost
function. -/
theorem sorts_callPostBody (c : Call) (result : Value) (native : Bool) (sorted : t.memory.Sorted kinds)
    (recalls : t.ghostOf? c = none → t.memory.Recalls t.settings.policies c kinds) :
    SortsFrom t kinds (callPostBody c result native) fun _ => Freely := by
  rw [callPostBody_eq]
  refine .get_bind ?_
  rcases called : t.ghostOf? c with _ | ghost
  · have closes {t' : Tracker} {kinds' : List Bool} (sorted : t'.memory.Sorted kinds')
        (recalls : t'.memory.Recalls t.settings.policies c kinds') : SortsFrom t' kinds'
        (HookM.onMemory (closeCall c result t.settings.policies) >>= concludeCall c native t)
        fun _ => Freely :=
      (SortsFrom.onMemory (sorts_closeCall _ c result) sorted recalls).bind fun r t₁ _ _ _ sorted₁ _ =>
        .of_adopts (adopts_concludeCall c native r t₁).memory sorted₁
    rw [if_neg (by decide)]
    split
    · have launders := SortsFrom.of_same (P := fun kinds m => m.Recalls t.settings.policies c kinds)
        (follows_launderSinks (R := Eq) c result t).memory.symm sorted (recalls called)
      exact launders.bind fun _ _ _ _ _ sorted₁ recalls₁ => closes sorted₁ recalls₁
    · exact closes sorted (recalls called)
  · exact .pure sorted trivial

theorem sorts_callPost (c : Call) (result : Value) (sorted : t.memory.Sorted kinds)
    (recalls : t.ghostOf? c = none → t.memory.Recalls t.settings.policies c kinds) :
    SortsFrom t kinds (callPost c result) fun _ => Freely := by
  refine .get_bind <| .hook (fun _ _ _ holds => holds) fun t₀ logs => ?_
  refine sorts_callPostBody c result _ (logs.memory ▸ sorted) fun real => ?_
  rw [logs.memory, logs.settings]
  rw [ghostOf?, logs.ghosts, logs.memory] at real
  exact recalls real

section Single

theorem sorts_literal (v : Value) (sorted : t.memory.Sorted kinds) :
    SortsFrom t kinds (literal v) fun _ => Freely :=
  .memoryHook (sorts_literalBody _ v) (fun _ _ _ h => h) sorted trivial

theorem sorts_endExpression (sorted : t.memory.Sorted kinds) :
    SortsFrom t kinds endExpression fun _ => Freely :=
  .memoryHook (.weaken (CheckedM.sorts_expectIdle _)) (fun _ _ _ h => h) sorted trivial

/-- After a condition its value is offered an identity. -/
theorem sorts_conditional (v : Value) (sorted : t.memory.Sorted kinds) :
    SortsFrom t kinds (conditional v) fun r kinds m => m.Offers r kinds := by
  refine (SortsFrom.memoryHook (sorts_conditionalBody v) (fun _ _ _ h => h) sorted trivial).bind
    fun r t₁ kinds₁ _ _ sorted₁ awaits => ?_
  exact ⟨kinds₁, List.prefix_refl kinds₁, sorted₁.congr rfl rfl, fun _ ok => by
    cases ok
    exact Awaits.offers awaits⟩

theorem sorts_write (target v : Value) (sorted : t.memory.Sorted kinds)
    (offers : t.memory.shadow.context = .conditional → t.memory.Offers v kinds) :
    SortsFrom t kinds (write target v) fun _ => Freely :=
  .hook (fun _ _ _ h => h) fun _ logs => .get_bind <| .onMemory (sorts_writeBody _ v _)
    (logs.memory ▸ sorted) (logs.memory ▸ offers)

theorem sorts_codePre (code : Value) (internal : Bool) (sorted : t.memory.Sorted kinds)
    (texts : OfText code t.memory) :
    SortsFrom t kinds (codePre code internal) fun _ kinds m => ∀ text, m.Offers (.string text) kinds :=
  .hook (fun _ _ _ h => h) fun _ logs => .get_bind <| .onMemory (sorts_codePreBody code internal _ _)
    (logs.memory ▸ sorted) (logs.memory ▸ texts)

theorem sorts_codePost (code : String) (sorted : t.memory.Sorted kinds)
    (offers : t.memory.Offers (.string code) kinds) : SortsFrom t kinds (codePost code) fun _ => Freely :=
  .hook (fun _ _ _ h => h) fun _ logs => .get_bind <| .onMemory (sorts_codePostBody _ code _ _)
    (logs.memory ▸ sorted) (logs.memory ▸ offers)

theorem adopts_enterFunction (f : Value) : Within (Follows Adopts) (enterFunction f) :=
  follows_memoryHook (fun _ => .of_same rfl rfl) _ _ fun _ => adopts_enterFunctionBody f

theorem adopts_exitFunction (threw : Bool) : Within (Follows Adopts) (exitFunction threw) :=
  follows_memoryHook (fun _ => .of_same rfl rfl) _ _ fun _ => adopts_exitFunctionBody threw

end Single

end Tracker

namespace Paired

open HookM

variable {t t₁ t₂ : Tracker} {kinds kinds' : List Bool} {p q : Paired}

/-- What the hook before an operation leaves to the hook after it: marked identities are reserved for the
operands, or a frame with such identities was saved. -/
def Entrusted (t : Tracker) (p : Paired) (kinds : List Bool) (m : Memory) : Paired → Prop
  | getField base offset => m.Awaits [offset, base] kinds
  | putField base offset v => AwaitsStore t.settings.policies t.memory.heap base offset v kinds m
  | binary _ left right => m.Awaits [right, left] kinds
  | unary _ operand => m.Awaits [operand] kinds
  | call q => p.entersBodies t = true → t.memory.Entrusts t.settings.policies q kinds m

/-- What the hook after an operation needs. -/
def Awaited (t : Tracker) (kinds : List Bool) : Paired → Prop
  | getField base offset => t.memory.Awaits [offset, base] kinds
  | putField base offset v =>
    AwaitsStore t.settings.policies t.memory.heap base offset v kinds t.memory
  | binary _ left right => t.memory.Awaits [right, left] kinds
  | unary _ operand => t.memory.Awaits [operand] kinds
  | call q => t.ghostOf? q = none → t.memory.Recalls t.settings.policies q kinds

/-- An external call leaves alone what it is called on, unless it is one of a ghost function. -/
def Intact (t t₁ t₂ : Tracker) (p : Paired) : Paired → Prop
  | call q => p.entersBodies t = true → q.external = true → q.Intact t.memory t₁.memory t₂.memory
  | _ => True

theorem sorts_before (p : Paired) (sorted : t.memory.Sorted kinds) :
    SortsFrom t kinds p.before fun q kinds m => p.Entrusted t kinds m q := by
  cases p with
  | getField base offset =>
    exact (SortsFrom.memoryHook (sorts_getFieldPreBody base offset) (fun _ _ _ h => h) sorted trivial).bind
      fun _ _ _ _ _ sorted awaits => .pure sorted awaits
  | putField base offset v =>
    exact (SortsFrom.memoryHook (sorts_putFieldPreBody _ t.memory.heap base offset v)
      (fun _ _ _ h => h) sorted rfl).bind fun _ _ _ _ _ sorted awaits => .pure sorted awaits
  | binary op left right =>
    exact (SortsFrom.memoryHook (sorts_binaryPreBody left right) (fun _ _ _ h => h) sorted trivial).bind
      fun _ _ _ _ _ sorted awaits => .pure sorted awaits
  | unary op operand =>
    exact (SortsFrom.memoryHook (sorts_unaryPreBody operand) (fun _ _ _ h => h) sorted trivial).bind
      fun _ _ _ _ _ sorted awaits => .pure sorted awaits
  | call c =>
    refine (sorts_callPre c sorted).bind fun q _ _ _ _ sorted entrusts => .pure sorted fun enters => ?_
    exact entrusts (Option.isNone_iff_eq_none.mp enters)

theorem sorts_after (q : Paired) (result : Value) (sorted : t.memory.Sorted kinds)
    (awaited : q.Awaited t kinds) : SortsFrom t kinds (q.after result) fun _ => Freely := by
  cases q with
  | getField base offset =>
    exact (SortsFrom.memoryHook (sorts_getFieldBody _ base offset result) (fun _ _ _ h => h) sorted
      awaited).bind fun _ _ _ _ _ sorted _ => .pure sorted trivial
  | putField base offset v =>
    exact (SortsFrom.memoryHook (sorts_putFieldBody _ base offset v) (fun _ _ _ h => h) sorted
      awaited).bind fun _ _ _ _ _ sorted _ => .pure sorted trivial
  | binary op left right =>
    exact (SortsFrom.memoryHook (sorts_binaryBody _ op left right result) (fun _ _ _ h => h) sorted
      awaited).bind fun _ _ _ _ _ sorted _ => .pure sorted trivial
  | unary op operand =>
    exact (SortsFrom.memoryHook (sorts_unaryBody _ operand result) (fun _ _ _ h => h) sorted
      awaited).bind fun _ _ _ _ _ sorted _ => .pure sorted trivial
  | call c =>
    exact (sorts_callPost c result sorted awaited).bind fun _ _ _ _ _ sorted _ => .pure sorted trivial

/-- What happens inside an operation brings the frame back as the hook before it has left it, so the hook
after it finds what it needs. -/
theorem Entrusted.awaited (h : p.Entrusted t kinds t₁.memory q) (hands : Hands t t₁ p q)
    (opened : Follows Grows t t₁) (follows : Follows Grows t₁ t₂)
    (inside : Phase.Complete t₁.memory t₂.memory (.inside (p.entersBodies t)))
    (undisturbed : Undisturbed t t₂ p q) (intact : Intact t t₁ t₂ p q) (more : kinds <+: kinds') :
    q.Awaited t₂ kinds' := by
  have frame {ids : List Identity} (leaves : t.memory.Leaves ids t₁.memory) (nonempty : ids ≠ [])
      (resumes : t₁.memory.Resumes t₂.memory) :
      t₂.memory.shadow.frame.reserved = t₁.memory.shadow.frame.reserved :=
    congrArg Frame.reserved (resumes.frame (by rw [leaves.reserved]; exact nonempty))
  cases hands with
  | getField _ _ leaves => exact Awaits.mono h more (frame leaves (List.cons_ne_nil _ _) inside)
  | binary _ _ leaves => exact Awaits.mono h more (frame leaves (List.cons_ne_nil _ _) inside)
  | unary _ leaves => exact Awaits.mono h more (frame leaves (List.cons_ne_nil _ _) inside)
  | putField _ _ outv leaves =>
    obtain ⟨allocated, tag⟩ := undisturbed
    have evolves := (trans_of (Follows Grows) opened follows).memory.evolves
    have settings := (trans_of (Follows Grows) opened follows).settings
    have kept := Awaits.mono h more (frame leaves outv.ne_nil inside)
    rwa [Awaited, AwaitsStore, settings, Levels.policyFor, ValueKind.of_evolves evolves allocated tag]
  | @call c q ids real hands opens context =>
    have enters : (Paired.call c).entersBodies t = true := by rw [entersBodies, real]; rfl
    rw [enters] at inside
    intro _
    have settings := (trans_of (Follows Grows) opened follows).settings
    rw [settings]
    exact (h enters).recalls opened.memory follows.memory (inside.frames q.site) more (intact enters)
  | @ghost c ghost called leaves =>
    intro real
    have later := ghostOf?_of_follows (trans_of (Follows Grows) opened follows) called
    cases later.symm.trans real

end Paired

end ShadowTaint
