import ShadowTaint.Proofs.Outside
import ShadowTaint.Proofs.SinkGrowth
import ShadowTaint.Proofs.Sessions
/-!
# The report about sinks

Where sinks are only reported, a call of a sink with a tainted argument is let through, and the report gets
a line with the name of the sink, unless it has one already. Which functions are sinks and what their names
are is asked at the time of the call, so the report goes by what the calls of the run found and not by what
is the case at its end.

## Main definitions

- `Tracker.sinkHit?`: the sink that a call reaches with a tainted argument.
- `Session.sinkHits`: the sinks that the calls of a run reach.
- `Tracker.Lists`: the report has the lines for some names.

## Main statements

- `Tracker.checkCall_of_report`: the check before a call reports what the call reaches.
- `Session.report_run`: the report lists what the calls of the run have reached, each name once.
-/

namespace ShadowTaint

open Memory

namespace Tracker

variable {t t' : Tracker} {names : List String}

/-- The name of the callee, if it is a sink and an argument is tainted. -/
def sinkHit? (t : Tracker) (c : Call) : Option String :=
  if t.sinks.isSink t.memory.heap (t.memory.calleeOf c) && c.args.any t.memory.isTainted then
    some (t.memory.functionName (t.memory.calleeOf c))
  else none

/-- The line of the report about a sink. -/
def reportLine (name : String) : String := s!"SINKHIT:{name}\n"

/-- The report has a line for each of the names, in the order in which they came first, and no other
lines. -/
structure Lists (t : Tracker) (names : List String) : Prop where
  reported : ∀ name, name ∈ t.reported ↔ name ∈ names
  report : t.report = String.join (names.eraseDups.map reportLine)

/-- The report is the same. -/
def SameReport (t t' : Tracker) : Prop := t'.reported = t.reported ∧ t'.report = t.report

instance : IsPreorder Tracker SameReport where
  refl _ := ⟨rfl, rfl⟩
  trans _ _ _ first second := ⟨second.1.trans first.1, second.2.trans first.2⟩

theorem SameReport.lists (same : t.SameReport t') (lists : t.Lists names) : t'.Lists names where
  reported := by
    rw [same.1]
    exact lists.reported
  report := same.2.trans lists.report

theorem outside_sameReport : Outside SameReport :=
  ⟨fun logs => ⟨logs.reported, logs.report⟩, fun _ _ => ⟨rfl, rfl⟩⟩

theorem sameReport_ghost (ghost : Ghost) (args : List Value) : Within SameReport (ghost.run args) :=
  Ghost.within_run {
    logs := fun _ _ => ⟨rfl, rfl⟩
    sinks := fun _ _ => ⟨rfl, rfl⟩
    scopes := fun _ _ _ => ⟨rfl, rfl⟩
    reads := fun _ _ => ⟨rfl, rfl⟩
    whole := fun _ _ _ _ => ⟨rfl, rfl⟩
    property := fun _ _ _ _ _ => ⟨rfl, rfl⟩ } args

/-- One more name gets a line if it is new. -/
theorem lists_reportSink (lists : t.Lists names) (name : String) :
    (t.reportSink name).Lists (names ++ [name]) := by
  unfold reportSink
  by_cases known : name ∈ t.reported
  · rw [if_pos known]
    have listed := (lists.reported name).mp known
    have lines : (names ++ [name]).eraseDups = names.eraseDups := by
      rw [List.eraseDups_append]
      simp [List.removeAll, listed]
    refine ⟨fun other => ?_, by rw [lines, lists.report]⟩
    rw [lists.reported, List.mem_append, List.mem_singleton]
    exact ⟨.inl, fun mem => mem.elim id fun same => same ▸ listed⟩
  · rw [if_neg known]
    have new : name ∉ names := fun listed => known ((lists.reported name).mpr listed)
    have lines : (names ++ [name]).eraseDups = names.eraseDups ++ [name] := by
      rw [List.eraseDups_append]
      simp [List.removeAll, new, List.eraseDups_cons]
    refine ⟨fun other => ?_, ?_⟩
    · show other ∈ name :: t.reported ↔ _
      rw [List.mem_cons, lists.reported, List.mem_append, List.mem_singleton, or_comm]
    · show t.report ++ reportLine name = _
      rw [lines, lists.report, List.map_append, String.join_append, List.map_singleton]
      simp

/-- Where sinks are only reported, the check before a call passes, and it reports what the call reaches. -/
theorem checkCall_of_report (c : Call) (on : t.settings.sinkReport = true) :
    ∃ m, checkCall c t = (.ok (), (t.sinkHit? c).elim { t with memory := m }
      (reportSink { t with memory := m })) := by
  have same := t.answersAs_notedBy c
  rw [checkCall_apply]
  -- the arguments are noted first, which changes no answer; only that is used from here on
  generalize t.notedBy c = m at same ⊢
  refine ⟨m, ?_⟩
  rw [taintedArguments_of_answers same, same.heap, on, not_isEmpty_taintedArguments, Bool.and_comm,
    sinkHit?]
  by_cases reached : (t.sinks.isSink t.memory.heap (t.memory.calleeOf c) &&
      c.args.any t.memory.isTainted) = true
  · rw [if_pos reached, if_pos reached]
    rfl
  · rw [if_neg reached, if_neg reached]
    rfl

/-- Where sinks are only reported, the hook before a call reports what the call reaches, and whatever it
fails with, it is not that a sink was reached. -/
theorem callPre_of_report (c : Call) (on : t.settings.sinkReport = true) (lists : t.Lists names) :
    (callPre c t).2.Lists (names ++ (t.sinkHit? c).toList) ∧
      ∀ e, (callPre c t).1 = .error e → ¬ e.IsSinkReached := by
  obtain ⟨t₀, t', logs, run, ended⟩ := callPre_run t c
  obtain ⟨m, passed⟩ := checkCall_of_report (t.placed c) (t := t₀) (by rw [logs.settings, on])
  have hit : t₀.sinkHit? (t.placed c) = t.sinkHit? c := by
    unfold sinkHit?
    rw [logs.memory, logs.sinks]
    rfl
  have noted : Lists { t₀ with memory := m } names :=
    SameReport.lists ⟨logs.reported, logs.report⟩ lists
  rw [hit] at passed
  have reported : ((t.sinkHit? c).elim { t₀ with memory := m } (reportSink { t₀ with memory := m })).Lists
      (names ++ (t.sinkHit? c).toList) := by
    rcases t.sinkHit? c with _ | name
    · rw [Option.toList_none, List.append_nil]
      exact noted
    · exact lists_reportSink noted name
  -- from the state after the check on nothing is reported, whether a ghost function runs or not
  generalize (t.sinkHit? c).elim { t₀ with memory := m } (reportSink { t₀ with memory := m }) = t₁
    at passed reported
  have body : callPreBody (t.placed c) (t.memory.isNativeCall (t.placed c)) t₀ =
      enterCall (t.placed c) (t.memory.isNativeCall (t.placed c)) t₁ := bind_apply_ok passed
  constructor
  · have entered := outside_sameReport.enterCall sameReport_ghost (t.placed c)
      (t.memory.isNativeCall (t.placed c)) t₁
    rw [← body] at entered
    have same : SameReport _ t' := trans_of SameReport entered ⟨ended.reported, ended.report⟩
    rw [run]
    exact same.lists reported
  · intro e failed
    rw [run] at failed
    exact callPreBody_of_passed passed _ (Prod.ext failed rfl)

end Tracker

namespace Session

variable {s : Session} {names : List String}

/-- The names of the sinks that the calls of the run reach with a tainted argument, each call asked when it
comes. -/
def sinkHits (s : Session) : List Event → List String
  | [] => []
  | e :: rest => (e.call?.bind s.tracker.sinkHit?).toList ++ (s.after e).sinkHits rest

theorem lists_after (on : s.tracker.settings.sinkReport = true) (lists : s.tracker.Lists names)
    (e : Event) : (s.after e).tracker.Lists (names ++ (e.call?.bind s.tracker.sinkHit?).toList) := by
  cases e with
  | host heap =>
    have silent : Event.call? (.host heap) = none := rfl
    rw [silent, Option.bind_none, Option.toList_none, List.append_nil]
    have same : s.tracker.SameReport (s.after (.host heap)).tracker := ⟨rfl, rfl⟩
    exact same.lists lists
  | hook h =>
    by_cases other : ∀ c, h ≠ .callPre c
    · have silent : Event.call? (.hook h) = none := by
        cases h with
        | callPre c => exact absurd rfl (other c)
        | _ => rfl
      rw [silent, Option.bind_none, Option.toList_none, List.append_nil]
      have same := Tracker.outside_sameReport.run
        (HookM.within_registerSink (fun _ _ => ⟨rfl, rfl⟩) fun _ _ => ⟨rfl, rfl⟩) h
        (fun c same => absurd same (other c)) s.tracker
      exact same.lists lists
    · obtain ⟨c, rfl⟩ : ∃ c, h = .callPre c := by simpa using other
      have state : ((Hook.callPre c).run s.tracker).2 = (Tracker.callPre c s.tracker).2 :=
        snd_bind_of_pure (fun _ _ => rfl) s.tracker
      rw [after, state]
      exact (Tracker.callPre_of_report c on lists).1

theorem lists_run (on : s.tracker.settings.sinkReport = true) (lists : s.tracker.Lists names)
    (events : List Event) : (s.run events).tracker.Lists (names ++ s.sinkHits events) := by
  -- over the events: the names so far grow by what the event reaches
  induction events generalizing s names with
  | nil =>
    rw [sinkHits, List.append_nil]
    exact lists
  | cons e rest ih =>
    rw [sinkHits, ← List.append_assoc]
    exact ih (by rw [settings_after, on]) (lists_after on lists e)

/-- Where sinks are only reported, the report has, at any point of a run, a line for each name of a sink that
a call has reached with a tainted argument, in the order in which the names came first, and nothing else. No
call is refused because of a sink. -/
theorem report_run {settings : Settings} (on : settings.sinkReport = true) (heap : Heap)
    (events : List Event) :
    ((start settings heap).run events).tracker.report =
        String.join (((start settings heap).sinkHits events).eraseDups.map Tracker.reportLine) ∧
      ∀ c e, (Tracker.callPre c ((start settings heap).run events).tracker).1 = .error e →
        ¬ e.IsSinkReached := by
  have empty : (start settings heap).tracker.Lists [] := ⟨fun _ => .rfl, rfl⟩
  have lists := lists_run on empty events
  rw [List.nil_append] at lists
  refine ⟨lists.report, fun c => ?_⟩
  have on' : ((start settings heap).run events).tracker.settings.sinkReport = true := by
    rw [settings_run]
    exact on
  exact (Tracker.callPre_of_report c on' lists).2

/-- The settings under which sinks are only reported. -/
def reporting : Settings := { sinkReport := true }

/-- A heap with a function that starts programs, an object, and the function that taints values. -/
def execAndSource : Heap :=
  ⟨#[{ kind := .function { name := "exec", native := some (.process .exec) } }, { kind := .plain "Object" },
    { kind := .function { name := "__jalangi_set_taint__" } }]⟩

/-- The call of the function that starts programs. -/
def starting (site : CallSite) : Call := { f := .object 0, base := .undefined, args := [.object 1], site }

/-- A program is started twice with a tainted object. -/
def startTwice : List Event :=
  [.host execAndSource,
    .hook (.callPre { f := .object 2, base := .undefined, args := [.object 1], site := 1 }),
    .hook (.callPre (starting 2)), .hook (.callPost { starting 2 with external := true } .undefined),
    .hook (.callPre (starting 3))]

/-- Both calls reach the sink, and it has one line in the report. -/
theorem report_run_startTwice :
    (start reporting ⟨#[]⟩).sinkHits startTwice = ["exec", "exec"] ∧
    ((start reporting ⟨#[]⟩).run startTwice).tracker.report = "SINKHIT:exec\n" := by
  have hits : (start reporting ⟨#[]⟩).sinkHits startTwice = ["exec", "exec"] := by decide +kernel
  have report := (report_run (show reporting.sinkReport = true from rfl) ⟨#[]⟩ startTwice).1
  rw [hits] at report
  exact ⟨hits, report⟩

end Session

end ShadowTaint
