import ShadowTaint.Proofs.Deeds
import ShadowTaint.Proofs.Records
/-!
# What findings point at

A finding gives the histories of the values that were found tainted. They are read when the hook has
done all that it will do about taint, so each of them is what is recorded for a value afterwards, or the
root of a value for which nothing is recorded.

## Main definitions

- `Memory.Knows`: a node is the history of some value.
- `Points`: a finding with which an action fails gives histories only.

## Main statements

- `Ghost.points_run`, `Deed.points`: findings of ghost functions, and those of steps.
- `Hook.knows_of_finding`: findings of hooks.
-/

namespace ShadowTaint

open Memory Tracker Policy

namespace Memory

/-- The node is the history of some value: it is recorded, or it is a root. -/
def Knows (m : Memory) (p : Provenance.Node) : Prop :=
  (∃ key e, m.shadow.entries.get? key = some e ∧ e.path = p) ∨ ∃ uid shown, p = .leaf uid shown

theorem Knows.quiet {m m' : Memory} {p : Provenance.Node} (h : m.Knows p) (quiet : m.Quiet m') :
    m'.Knows p := by
  rcases h with ⟨key, e, found, path⟩ | root
  · exact .inl ⟨key, e, by rw [quiet.entries, found], path⟩
  · exact .inr root

theorem HistoryAt.knows {m : Memory} {v : Value} {n : Provenance.Node} (h : m.HistoryAt v n) :
    m.Knows n := by
  rw [HistoryAt] at h
  rcases stored : m.stored? v with _ | e <;> rw [stored] at h
  · obtain ⟨uid, shown, -, root⟩ := h
    exact .inr ⟨uid, shown, root⟩
  · obtain ⟨key, -, found⟩ := Option.bind_eq_some_iff.mp stored
    exact .inl ⟨key, e, found, h.symm⟩

end Memory

/-- If the action fails with a finding, then the finding gives histories of values in the memory that
the action leaves. -/
def Points {σ α : Type} (memory : σ → Memory) (x : ExceptT Fault (StateM σ) α) : Prop :=
  ∀ s f s', x s = (.error (.finding f), s') → ∀ p ∈ f.paths, (memory s').Knows p

namespace Points

variable {σ α β : Type} {memory : σ → Memory}

theorem of_silent {x : ExceptT Fault (StateM σ) α} (h : Raises Fault.Silent x) : Points memory x :=
  fun s _ s' run => nomatch h s _ s' run

protected theorem pure (a : α) : Points memory (pure a : ExceptT Fault (StateM σ) α) :=
  of_silent (.pure a)

protected theorem lift (x : StateM σ α) : Points memory (liftM x : ExceptT Fault (StateM σ) α) :=
  of_silent (.lift x)

protected theorem get : Points memory (get : ExceptT Fault (StateM σ) σ) := of_silent .get

protected theorem throw {e : Fault} (silent : e.Silent) :
    Points memory (throw e : ExceptT Fault (StateM σ) α) := of_silent (.throw silent)

protected theorem bind {x : ExceptT Fault (StateM σ) α} {f : α → ExceptT Fault (StateM σ) β}
    (hx : Points memory x) (hf : ∀ a, Points memory (f a)) : Points memory (x >>= f) := by
  intro s g s' run
  rcases bind_eq_error.mp run with first | ⟨a, s'', -, second⟩
  · exact hx s g s' first
  · exact hf a s'' g s' second

theorem onMemory {x : CheckedM α} (h : Points id x) : Points Tracker.memory (HookM.onMemory x) := by
  intro t f t' run
  rw [HookM.onMemory_apply] at run
  rcases acted : x t.memory with ⟨result, m⟩
  rw [acted] at run
  cases run
  exact h _ f m acted

end Points

namespace CheckedM

/-- A value is reported with its history. -/
theorem points_report {α : Type} (kind : FindingKind) (v : Value) : Points id (do
    throw (.finding { kind, paths := [← MemoryM.history v] }) : CheckedM α) := by
  intro m f m' run p mem
  cases run
  have known := (MemoryM.entryOf_used (.refl m) v).2.2.knows
  rw [List.mem_singleton.mp mem]
  exact known.quiet ((NodesUsed.refl m).more 1).quiet

theorem points_check (v : Value) : Points id (check v) := by
  refine .bind .get fun m => ?_
  split
  · exact points_report _ v
  · exact .pure _

theorem points_setPropertyTaint (v : Value) (key : String) (tainted : Bool) :
    Points id (setPropertyTaint v key tainted) := by
  refine .bind .get fun m => ?_
  split
  · exact .throw rfl
  · refine .bind (.lift _) fun old => ?_
    dsimp only
    split
    · exact .throw rfl
    · exact .lift _

end CheckedM

namespace Deed

theorem points_putField (policy : Policy) (levels : Levels) (ops : Operands) :
    Points id (policy.putField levels ops) := by
  have polluting : Points id (ObjectRule.checkPollution ops) := by
    refine .bind .get fun m => ?_
    dsimp only
    split
    · exact CheckedM.points_report _ _
    · exact .pure _
  have object (grain : Grain) : Points id (ObjectRule.putField grain ops) := by
    refine .bind polluting fun _ => ?_
    cases grain with
    | precise => exact .pure _
    | imprecise =>
      exact .bind .get fun m => .bind (.lift _) fun _ => .bind (.lift _) fun _ =>
        .bind (.lift _) fun _ => .lift _
  cases policy with
  | global =>
    refine .bind .get fun m => ?_
    split
    · exact CheckedM.points_report _ _
    · exact .pure _
  | _ => exact object _

/-- Stores and evaluations are the only steps that find anything. -/
theorem points (levels : Levels) (d : Deed) : Points id (d.run levels) := by
  cases d with
  | store policy ops => exact points_putField policy levels ops
  | evaluate code sink maxLength =>
    refine .bind (.lift _) fun _ => .bind .get fun m => ?_
    dsimp only
    split
    · exact CheckedM.points_report _ _
    · exact .pure _
  | _ => exact .lift _

end Deed

namespace Tracker

theorem knows_histories {m₀ m : Memory} (used : NodesUsed m₀ m) (ps : List (Value × Nat)) :
    (∀ n ∈ (ps.mapM (fun p => MemoryM.history p.1) m).1, m₀.Knows n) ∧
      NodesUsed m₀ (ps.mapM (fun p => MemoryM.history p.1) m).2 := by
  induction ps generalizing m with
  | nil => exact ⟨nofun, used⟩
  | cons p rest ih =>
    obtain ⟨n, m₁, read, used₁, history⟩ := MemoryM.history_at used p.1
    rw [List.mapM_cons, bind_apply, read]
    obtain ⟨known, used₂⟩ := ih used₁
    refine ⟨fun k mem => ?_, used₂⟩
    rcases List.mem_cons.mp mem with rfl | later
    · exact history.knows
    · exact known k later

/-- The tainted arguments of a sink are reported with their histories. -/
theorem points_checkCall (c : Call) : Points memory (checkCall c) := by
  refine .bind .get fun t => .bind (.onMemory ?_) fun _ => .bind .get fun t => ?_
  · exact .of_silent fun m e m' run => by
      rw [forM_lift_apply] at run
      cases run
  · dsimp only
    split
    · split
      · exact .lift _
      · intro t₁ f t' run p mem
        obtain ⟨known, used⟩ := knows_histories (.refl t₁.memory) (taintedArguments t.memory c.args)
        rw [bind_apply_ok (HookM.onMemory_apply _ _ |>.trans (by rw [mapM_lift_apply]))] at run
        cases run
        exact (known p mem).quiet used.quiet
    · exact .pure _

end Tracker

theorem Ghost.admits_points (ghost : Ghost) :
    ghost.Admits fun _ x => Points Tracker.memory x where
  returns := .pure
  binds := .bind
  reads := .get
  fails _ silent := .throw silent
  logEvent _ := .lift _
  registerSink v kind category := by
    refine .bind .get fun t => ?_
    split
    · exact .pure _
    · exact .bind (.lift _) fun _ => .bind (.lift _) fun _ => .pure _
  check v := .onMemory (CheckedM.points_check v)
  whole _ _ _ := .onMemory (.lift _)
  property tainted v key _ := .onMemory (CheckedM.points_setPropertyTaint v key tainted)
  push _ := .lift _
  pop _ args := by
    refine .bind .get fun t => ?_
    dsimp only
    split
    · exact .lift _
    · exact .throw rfl

theorem Ghost.points_run (ghost : Ghost) (args : List Value) :
    Points Tracker.memory (ghost.run args) := ghost.admits_points.run args

namespace Tracker

/-- After the check of the arguments, only a ghost function finds anything. -/
theorem points_callPreBody (c : Call) (native : Bool) : Points memory (callPreBody c native) := by
  refine .bind (points_checkCall c) fun _ => .bind .get fun t => ?_
  split
  · exact .onMemory (.of_silent (calm_openCall _ c native).raises)
  · exact .bind (.onMemory (.of_silent (CheckedM.calm_expectIdle _).raises)) fun _ =>
      .bind (Ghost.points_run _ _) fun _ => .pure _

end Tracker

/-- Each history that a hook gives in a finding is one that is recorded, or it is a root. -/
theorem Hook.knows_of_finding (h : Hook) {t : Tracker} {f : Finding}
    (found : (h.run t).1 = .error (.finding f)) : ∀ p ∈ f.paths, (h.run t).2.memory.Knows p := by
  intro p mem
  by_cases other : ∀ c, h ≠ .callPre c
  · rcases h.idles_or_does other t with ⟨d, m, does⟩ | idles
    · obtain ⟨-, ends⟩ := does.run
      exact (d.points t.settings.policies m f _ (Prod.ext (ends.finding f found) rfl) p mem).quiet
        ends.quiet
    · exact absurd found (idles.silent f)
  · obtain ⟨c, rfl⟩ : ∃ c, h = .callPre c := by simpa using other
    obtain ⟨c', native, t₀, t', -, -, run, ended⟩ := run_callPre c t
    rw [run] at found ⊢
    show t'.memory.Knows p
    rw [ended.memory]
    exact (points_callPreBody c' native t₀ f _ (Prod.ext (error_of_map found) rfl) p mem).quiet
      (quiet_ended _)

end ShadowTaint
