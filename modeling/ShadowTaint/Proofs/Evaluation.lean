import ShadowTaint.Proofs.Persistence
import ShadowTaint.Proofs.Spans
/-!
# Evaluating tainted code

Tainted code is never handed to the host as it is. Where evaluating it is a sink, it is refused, and
elsewhere the host gets code that evaluates it inside a scope. Code is exempt if it contains one of two
markers. One of them is in all code that was made for this purpose, so code is not rewritten twice, but it
exempts any other code that contains it as well.

## Main statements

- `Tracker.containsText_rewrite`: rewritten code, and the code that runs inside it, contain the marker.
- `Tracker.codePre_contains`: tainted code is refused or rewritten, unless it contains a marker.
- `Session.marked_code_passes`: tainted code that was never rewritten is exempt by its marker.
-/

namespace ShadowTaint

open Memory

namespace Rewrite

theorem escape_append (first second : List Char) :
    escape (first ++ second) = escape first ++ escape second :=
  List.flatMap_append

/-- Rewriting code leaves the marker in front of it as it is. -/
theorem rewriteMarker_infix (code : List Char) : rewriteMarker.toList <:+: rewriteChars code := by
  have plain : escape rewriteMarker.toList = rewriteMarker.toList := by decide
  refine ⟨head.toList ++ ['"'], escape (';' :: code) ++ '"' :: tail.toList, ?_⟩
  rw [rewriteChars, marked, escape_append, plain]
  simp

end Rewrite

namespace Tracker

theorem containsText_iff {s part : String} :
    containsText s part = true ↔ part.toList <:+: s.toList := Text.occursIn_iff_infix

/-- Rewritten code contains the marker that keeps it from being rewritten again. -/
theorem containsText_rewrite (code : String) :
    containsText (Rewrite.rewrite code) Rewrite.rewriteMarker = true := by
  rw [containsText_iff, Rewrite.rewrite, String.toList_ofList]
  exact Rewrite.rewriteMarker_infix code.toList

/-- So does the code that rewritten code evaluates in its scope. -/
theorem containsText_marked (code : String) :
    containsText (Rewrite.rewriteMarker ++ ";" ++ code) Rewrite.rewriteMarker = true := by
  rw [containsText_iff, String.toList_append, String.toList_append, List.append_assoc]
  exact (List.prefix_append _ _).isInfix

section Preparing

variable {m : Memory} {code : Value} {id : Identity} {raw : String}

/-- The identity of a known shadow is reserved, and nothing else happens. -/
theorem unwrap_known (known : m.shadow.lookup? code = some (id, .string raw)) :
    MemoryM.unwrap code m = (.string raw, { m with shadow := m.shadow.push id }) := by
  have value : m.valueOf code = .string raw := ShadowState.valueOf_of_lookup known
  have identity : MemoryM.identityOf code m = (id, m) := by
    unfold MemoryM.identityOf
    rw [bind_apply, get_apply]
    dsimp only
    rw [known]
    rfl
  unfold MemoryM.unwrap MemoryM.reserve
  rw [bind_apply, get_apply]
  dsimp only
  rw [bind_apply, bind_apply, identity, value]
  rfl

/-- The text of a string with a known shadow is read, and the string stays as tainted as it was. -/
theorem codeSource_ok (rest : m.shadow.AtRest) (known : m.shadow.lookup? code = some (id, .string raw))
    (internal : Bool) : ∃ m', codeSource code internal m = (.ok raw, m') ∧ m'.heap = m.heap ∧
      m'.valueOf code = .string raw ∧ m'.isTainted code = m.isTainted code := by
  obtain ⟨m₁, idle, dropped, heap⟩ := CheckedM.expectIdle_ok rest "WEvalPre"
  have known₁ := dropped.toGrows.lookup? known
  have entries : m₁.shadow.entries = m.shadow.entries :=
    ((CheckedM.calm_expectIdle "WEvalPre").within.of_apply idle).entries
  have source : codeSource code internal m = (.ok raw,
      if internal then m₁ else { m₁ with shadow := m₁.shadow.push id }) := by
    unfold codeSource
    rw [bind_apply_ok idle, lift_bind_apply, unwrap_known known₁]
    -- an identity that was reserved last is the one that is dropped
    cases internal with
    | true =>
      show (Except.ok (Heap.keyText _ (.string raw)), _) = _
      rw [Heap.keyText_string]
      rfl
    | false =>
      show (Except.ok (Heap.keyText _ (.string raw)), _) = _
      rw [Heap.keyText_string]
      rfl
  have tainted {m' : Memory} (wraps : m'.shadow.wraps = m₁.shadow.wraps)
      (same : m'.shadow.entries = m₁.shadow.entries) : m'.isTainted code = m.isTainted code := by
    have known' : m'.shadow.lookup? code = some (id, .string raw) := by
      rw [lookup?_of_wraps wraps, known₁]
    rw [isTainted_of_lookup known', isTainted_of_lookup known, same, entries]
  have value : m₁.valueOf code = .string raw := ShadowState.valueOf_of_lookup known₁
  refine ⟨_, source, ?_⟩
  cases internal with
  | true => exact ⟨heap, value, tainted rfl rfl⟩
  | false => exact ⟨heap, (valueOf_of_wraps rfl code).trans value, tainted rfl rfl⟩

/-- The note in the history of the code does not make it look untainted. -/
theorem checkCode_refused (value : m.valueOf code = .string raw) (tainted : m.isTainted code = true)
    (maxLength : Nat) : ∃ paths m', checkCode code true maxLength m = (.error (.finding
      ⟨.evalReached (m.heap.describe (.string raw) maxLength), paths⟩), m') := by
  have noted := MemoryM.answersAs_relabel code evalLabel m
  unfold checkCode
  rw [lift_bind_apply, get_bind_apply]
  dsimp only
  rw [if_pos (by rw [noted.isTainted, tainted]; rfl), valueOf_of_wraps noted.wraps, value, noted.heap]
  exact ⟨_, _, rfl⟩

end Preparing

/-- Tainted code is refused where evaluating it is a sink. Elsewhere it is rewritten, unless it contains the
marker of rewritten code. All code that was made by rewriting, and all code that such code evaluates in its
scope, contains that marker, so no code is rewritten twice. -/
theorem codePre_contains {t : Tracker} (rest : t.memory.shadow.AtRest) {code : Value} {id : Identity}
    {raw : String} (known : t.memory.shadow.lookup? code = some (id, .string raw))
    (tainted : t.memory.isTainted code = true)
    (plain : containsText raw Rewrite.instrumentMarker = false) (internal : Bool) :
    (t.scope.sink = true → ∃ paths, (codePre code internal t).1 = .error (.finding
      ⟨.evalReached (t.memory.heap.describe (.string raw) t.settings.maxLength), paths⟩)) ∧
    (t.scope.sink = false → (codePre code internal t).1 =
      .ok (if containsText raw Rewrite.rewriteMarker then raw else Rewrite.rewrite raw)) ∧
    ∀ c, containsText (Rewrite.rewrite c) Rewrite.rewriteMarker = true ∧
      containsText (Rewrite.rewriteMarker ++ ";" ++ c) Rewrite.rewriteMarker = true := by
  obtain ⟨m, source, heap, value, same⟩ := codeSource_ok rest known internal
  have same : m.isTainted code = true := same.trans tainted
  -- what the hook returns is what its body returns
  have returned {r : Except Fault String} {m' : Memory} (run : codePreBody code internal t.scope.sink
      t.settings.maxLength t.memory = (r, m')) : (codePre code internal t).1 = r := by
    obtain ⟨t', hooked, -⟩ := HookM.hook_of "instrument_code_pre"
      (fun t => [("code", t.render code), ("is_internal", if internal then "true" else "false")])
      (fun t => codePreBody code internal t.scope.sink t.settings.maxLength)
      (fun t₀ logs => by rw [logs.scope, logs.settings]) run
    exact congrArg (·.1) hooked
  rw [codePreBody_eq, bind_apply_ok source, if_neg (by simp [plain])] at returned
  refine ⟨fun sink => ?_, fun implicit => ?_, fun c => ⟨containsText_rewrite c, containsText_marked c⟩⟩
  · obtain ⟨paths, m', refused⟩ := checkCode_refused value same t.settings.maxLength
    rw [sink, if_pos rfl, bind_apply_error refused] at returned
    rw [returned rfl, heap]
    exact ⟨paths, rfl⟩
  · rw [implicit, if_neg Bool.false_ne_true, get_bind_apply, same] at returned
    by_cases marked : containsText raw Rewrite.rewriteMarker = true
    · rw [if_pos marked]
      exact returned (by simp [marked]; rfl)
    · rw [if_neg marked]
      exact returned (by simp [marked]; rfl)

end Tracker

namespace Session

/-- A heap with the function that taints values. -/
def sourceFunction : Heap := ⟨#[{ kind := .function { name := "__jalangi_set_taint__" } }]⟩

/-- A literal of the program is tainted. -/
def taintedText (text : String) : List Event :=
  [.hook (.literal (.string text)), .host sourceFunction,
    .hook (.callPre { f := .object 0, base := .undefined, site := 0
                      args := [.shadow ⟨0⟩ ⟨0⟩ (.string text)] })]

/-- The tracker when that is done and evaluating code is no sink. -/
def afterText (text : String) : Tracker :=
  (run (start { evalSink := false } ⟨#[]⟩) (taintedText text)).tracker

end Session

namespace Tracker

open Session

/-- A tainted assignment is rewritten. -/
theorem codePre_contains_assignment : Reachable (afterText "x = 1") ∧
    (afterText "x = 1").memory.shadow.AtRest ∧
    (afterText "x = 1").memory.shadow.lookup? (.shadow ⟨0⟩ ⟨0⟩ (.string "x = 1")) =
      some (⟨0⟩, .string "x = 1") ∧
    (afterText "x = 1").memory.isTainted (.shadow ⟨0⟩ ⟨0⟩ (.string "x = 1")) = true ∧
    containsText "x = 1" Rewrite.instrumentMarker = false ∧
    (codePre (.shadow ⟨0⟩ ⟨0⟩ (.string "x = 1")) false (afterText "x = 1")).1 =
      .ok (Rewrite.rewrite "x = 1") := by
  have rest : (afterText "x = 1").memory.shadow.AtRest := .inl (by decide +kernel)
  have known : (afterText "x = 1").memory.shadow.lookup? (.shadow ⟨0⟩ ⟨0⟩ (.string "x = 1")) =
      some (⟨0⟩, .string "x = 1") := rfl
  have tainted : (afterText "x = 1").memory.isTainted (.shadow ⟨0⟩ ⟨0⟩ (.string "x = 1")) = true := by
    decide +kernel
  have plain : containsText "x = 1" Rewrite.instrumentMarker = false := by decide +kernel
  have unmarked : containsText "x = 1" Rewrite.rewriteMarker = false := by decide +kernel
  obtain ⟨-, implicit, -⟩ := codePre_contains rest known tainted plain false
  refine ⟨reachable_run (.start _ ⟨#[]⟩) (taintedText "x = 1"), rest, known, tainted, plain, ?_⟩
  rw [implicit (by decide +kernel), unmarked]
  rfl

end Tracker

namespace Session

/-- A call that mentions the marker, and was not made by rewriting. -/
def markedCode : String := "run(__nodetaint_do_not_rewrite__)"

/-- It is tainted, and it is evaluated as it is. -/
theorem marked_code_passes : Reachable (afterText markedCode) ∧
    (afterText markedCode).memory.shadow.AtRest ∧
    (afterText markedCode).memory.shadow.frame.callType = .internal ∧
    (afterText markedCode).memory.shadow.isWrapped (.shadow ⟨0⟩ ⟨0⟩ (.string markedCode)) = true ∧
    (afterText markedCode).memory.isTainted (.shadow ⟨0⟩ ⟨0⟩ (.string markedCode)) = true ∧
    Tracker.containsText markedCode Rewrite.instrumentMarker = false ∧
    (afterText markedCode).scope.sink = false ∧
    (Tracker.codePre (.shadow ⟨0⟩ ⟨0⟩ (.string markedCode)) false
      (afterText markedCode)).1.toOption = some markedCode ∧
    (∀ c, markedCode ≠ Rewrite.rewrite c) ∧ ∀ c, markedCode ≠ Rewrite.rewriteMarker ++ ";" ++ c := by
  refine ⟨reachable_run (.start _ ⟨#[]⟩) (taintedText markedCode), .inl (by decide +kernel),
    by decide +kernel, by decide +kernel, by decide +kernel, by decide +kernel, by decide +kernel,
    by decide +kernel, fun c same => ?_, fun c same => ?_⟩
  -- the three kinds of code begin with different letters
  · have letters := congrArg (fun s => s.toList.head?) same
    rw [Rewrite.rewrite, String.toList_ofList] at letters
    cases letters
  · have letters := congrArg (fun s => s.toList.head?) same
    rw [String.toList_append, String.toList_append] at letters
    cases letters

end Session

end ShadowTaint
