import ShadowTaint.Proofs.Lasting
import ShadowTaint.Proofs.Tallies
/-!
# What the hook before a call records

Before a call the call is noted in the histories of its arguments. That leaves every bit and every map
alone, and where a value had no entry it gets one that says that it is untainted. If the callee is a ghost
function, the function runs then, and nothing else records anything.

## Main definitions

- `Memory.Retells`: the same is recorded, histories put aside, or that a value is untainted.

## Main statements

- `Hook.callPre_cases`: what is recorded before a call is notes, or notes and what a ghost function
  writes.
-/

namespace ShadowTaint

open Memory Tracker Policy

/-- Bits and characters are what they were. Entries that are new say that a value is untainted. -/
structure Memory.Retells (m m' : Memory) : Prop where
  heap : m'.heap = m.heap
  wraps : m'.shadow.wraps = m.shadow.wraps
  kept : ∀ key e, m.shadow.entries.get? key = some e →
    ∃ e', m'.shadow.entries.get? key = some e' ∧ e'.bit = e.bit ∧ e'.chars = e.chars
  entries : ∀ key e', m'.shadow.entries.get? key = some e' →
    (∃ e, m.shadow.entries.get? key = some e ∧ e'.bit = e.bit ∧ e'.chars = e.chars) ∨
      ∃ v, m.shadow.keyOf v = some key ∧ e'.bit = false ∧ e'.chars = m.charMap? v false

namespace Memory

variable {m m' : Memory}

/-- The entries are the same ones. -/
theorem Retells.of_entries (heap : m'.heap = m.heap) (wraps : m'.shadow.wraps = m.shadow.wraps)
    (entries : m'.shadow.entries = m.shadow.entries) : m.Retells m' where
  heap := heap
  wraps := wraps
  kept key e found := ⟨e, by rw [entries, found], rfl, rfl⟩
  entries key e found := .inl ⟨e, by rw [← entries, found], rfl, rfl⟩

instance : IsPreorder Memory Retells where
  refl _ := .of_entries rfl rfl rfl
  trans _ _ _ first second := by
    refine ⟨second.heap.trans first.heap, second.wraps.trans first.wraps, fun key e found => ?_,
      fun key e' found => ?_⟩
    · obtain ⟨e₁, found₁, bit₁, chars₁⟩ := first.kept key e found
      obtain ⟨e₂, found₂, bit₂, chars₂⟩ := second.kept key e₁ found₁
      exact ⟨e₂, found₂, bit₂.trans bit₁, chars₂.trans chars₁⟩
    · rcases second.entries key e' found with ⟨e₁, found₁, bit₁, chars₁⟩ | ⟨v, tracked, bit, chars⟩
      · rcases first.entries key e₁ found₁ with ⟨e, found, bit, chars⟩ | ⟨v, tracked, bit, chars⟩
        · exact .inl ⟨e, found, bit₁.trans bit, chars₁.trans chars⟩
        · exact .inr ⟨v, tracked, bit₁.trans bit, chars₁.trans chars⟩
      · refine .inr ⟨v, ?_, bit, ?_⟩
        · rw [← keyOf_of_wraps first.wraps, tracked]
        · rw [chars, charMap?_of_wraps first.wraps]

theorem Retells.keyText (h : m.Retells m') (v : Value) : m'.keyText v = m.keyText v := by
  rw [Memory.keyText, Memory.keyText, h.heap, valueOf_of_wraps h.wraps]

theorem stored?_of_key {v : Value} {key : TaintKey} (tracked : m.shadow.keyOf v = some key) :
    m.stored? v = m.shadow.entries.get? key := by
  rw [stored?, ShadowState.stored?, tracked, Option.bind_some]

/-- Inversion of a look-up: the key has an entry before and after, or none before and at most one that
says that a value is untainted after. -/
theorem Retells.get?_cases (h : m.Retells m') (key : TaintKey) :
    (∃ e e', m.shadow.entries.get? key = some e ∧ m'.shadow.entries.get? key = some e' ∧
      e'.bit = e.bit ∧ e'.chars = e.chars) ∨
    (m.shadow.entries.get? key = none ∧ ∀ e', m'.shadow.entries.get? key = some e' →
      ∃ v, m.shadow.keyOf v = some key ∧ e'.bit = false ∧ e'.chars = m.charMap? v false) := by
  rcases before : m.shadow.entries.get? key with _ | e
  · refine .inr ⟨rfl, fun e' after => ?_⟩
    rcases h.entries key e' after with ⟨e, found, -⟩ | new
    · rw [before] at found
      cases found
    · exact new
  · obtain ⟨e', after, bit, chars⟩ := h.kept key e before
    exact .inl ⟨e, e', rfl, after, bit, chars⟩

/-- A tainted character is still recorded, and it was recorded before. -/
theorem Retells.character_iff (h : m.Retells m') (v : Value) (map : CharMap)
    (tainted : true ∈ map.chars) :
    (m'.stored? v).bind (·.chars) = some map ↔ (m.stored? v).bind (·.chars) = some map := by
  have key : m'.shadow.keyOf v = m.shadow.keyOf v := keyOf_of_wraps h.wraps v
  rw [stored?, stored?, ShadowState.stored?, ShadowState.stored?, key]
  rcases m.shadow.keyOf v with _ | key
  · exact .rfl
  · rw [Option.bind_some, Option.bind_some]
    rcases h.get?_cases key with ⟨e, e', before, after, -, chars⟩ | ⟨before, clear⟩
    · rw [before, after, Option.bind_some, Option.bind_some, chars]
    · rw [before, Option.bind_none]
      constructor
      · intro recorded
        obtain ⟨e', after, chars'⟩ := Option.bind_eq_some_iff.mp recorded
        obtain ⟨w, -, -, chars⟩ := clear e' after
        -- a map that was made for the note has no tainted character
        rw [chars, charMap?] at chars'
        obtain ⟨text, -, rfl⟩ := Option.map_eq_some_iff.mp chars'
        cases List.eq_of_mem_replicate tainted
      · intro recorded
        cases recorded

end Memory

namespace MemoryM

theorem retells_history (v : Value) : Within Retells (history v) := fun _ => .of_entries rfl rfl rfl

theorem retells_relabel (v : Value) (label : String) : Within Retells (relabel v label) := by
  intro m
  have marks := marks_relabel v label m
  have entries := get?_relabel v label m
  refine ⟨marks.heap, marks.wraps, fun key e found => ?_, fun key e' found => ?_⟩
  · rw [entries]
    by_cases own : m.shadow.keyOf v = some key
    · have entry : m.entryOf v = e := by rw [entryOf, stored?_of_key own, found]
      rw [if_pos own, entry]
      exact ⟨_, rfl, rfl, rfl⟩
    · rw [if_neg own]
      exact ⟨e, found, rfl, rfl⟩
  · rw [entries] at found
    by_cases own : m.shadow.keyOf v = some key
    · rw [if_pos own] at found
      cases found
      rcases stored : m.shadow.entries.get? key with _ | e
      · refine .inr ⟨v, own, ?_, ?_⟩
        · rw [entryOf, stored?_of_key own, stored]
        · rw [entryOf, stored?_of_key own, stored]
      · refine .inl ⟨e, rfl, ?_, ?_⟩
        · rw [entryOf, stored?_of_key own, stored]
        · rw [entryOf, stored?_of_key own, stored]
    · rw [if_neg own] at found
      exact .inl ⟨e', found, rfl, rfl⟩

theorem retells_discard : Within Retells discard :=
  AdmitsIdentities.discard ⟨fun _ => .of_entries rfl rfl rfl, fun _ _ => .of_entries rfl rfl rfl⟩

end MemoryM

theorem CheckedM.retells_expectIdle (site : String) : Within Retells (expectIdle site) :=
  within_expectIdle MemoryM.retells_discard site

/-- What the call itself records, before the hook ends, is notes, or notes and what the ghost function
writes that is called. Where no ghost function runs although one is called, the call fails. -/
theorem Tracker.callPreBody_notes (c : Call) (native : Bool) (t : Tracker) :
    (∃ m, t.memory.Retells m ∧ m.Quiet (callPreBody c native t).2.memory ∧
      ∀ g, t.ghostOf? c = some g → (callPreBody c native t).1.isOk = false) ∨
    ∃ g t₁, t.ghostOf? c = some g ∧ t.memory.Retells t₁.memory ∧
      (callPreBody c native t).2.memory = (g.run c.args t₁).2.memory ∧
      (callPreBody c native t).1.isOk = (g.run c.args t₁).1.isOk := by
  have noted := (within_checkCall MemoryM.retells_relabel MemoryM.retells_history c t).memory
  rcases checkCall_passes c t with ⟨t₁, passed, marks⟩ | ⟨f, t₁, refused, -⟩
  · rw [passed] at noted
    rcases called : t.ghostOf? c with _ | g
    · rw [callPreBody_of_real passed (by rw [ghostOf?_of_marks marks, called])]
      exact .inl ⟨t₁.memory, noted, (calm_openCall _ _ _).within _, fun _ ghost => by cases ghost⟩
    · -- the ghost function runs only if nothing is pending; the check of that writes notes too
      have idle := CheckedM.retells_expectIdle "WGhostCall" t₁.memory
      have step := HookM.onMemory_apply (CheckedM.expectIdle "WGhostCall") t₁
      rw [callPreBody_of_called passed (by rw [ghostOf?_of_marks marks, called]), enterGhost]
      rcases run : CheckedM.expectIdle "WGhostCall" t₁.memory with ⟨e | ⟨⟩, m₂⟩
      · rw [run] at idle step
        rw [bind_apply_error step]
        exact .inl ⟨m₂, trans_of Retells noted idle, refl_of Quiet m₂, fun _ _ => rfl⟩
      · rw [run] at idle step
        rw [bind_apply_ok step]
        refine .inr ⟨g, { t₁ with memory := m₂ }, rfl, trans_of Retells noted idle, ?_⟩
        rcases ran : g.run c.args { t₁ with memory := m₂ } with ⟨e | ⟨⟩, t₃⟩
        · rw [bind_apply_error ran]
          exact ⟨rfl, rfl⟩
        · rw [bind_apply_ok ran]
          exact ⟨rfl, rfl⟩
  · rw [refused] at noted
    rw [callPreBody_of_refused refused]
    exact .inl ⟨t₁.memory, noted, refl_of Quiet t₁.memory, fun _ _ => rfl⟩

/-- What is recorded before a call is notes, or notes and what the ghost function writes that is called.
Where no ghost function runs although one is called, the hook fails. -/
theorem Hook.callPre_cases (c : Call) (t : Tracker) :
    (∃ m, t.memory.Retells m ∧ m.Quiet ((callPre c).run t).2.memory ∧
      ∀ g, t.ghostOf? c = some g → ((callPre c).run t).1.isOk = false) ∨
    ∃ g t₁, t.ghostOf? c = some g ∧ t.memory.Retells t₁.memory ∧
      ((callPre c).run t).2.memory = (g.run c.args t₁).2.memory.ended ∧
      ((callPre c).run t).1.isOk = (g.run c.args t₁).1.isOk := by
  obtain ⟨t₀, t', logs, run, ended⟩ := callPre_run t c
  have ghosts : t₀.ghostOf? (t.placed c) = t.ghostOf? c := by
    rw [ghostOf?, ghostOf?, logs.ghosts, logs.memory]
    rfl
  have notes := callPreBody_notes (t.placed c) (t.memory.isNativeCall (t.placed c)) t₀
  rw [ghosts, logs.memory] at notes
  have memory := ended.memory
  generalize callPreBody (t.placed c) (t.memory.isNativeCall (t.placed c)) t₀ = outcome
    at run memory notes
  have hooked : (callPre c).run t = (outcome.1.map Call.operands, t') := by
    show (Tracker.callPre c >>= fun c => pure c.operands : HookM _) t = _
    rcases outcome with ⟨e | q, t₁⟩
    · rw [bind_apply_error run]
      rfl
    · rw [bind_apply_ok run]
      rfl
  have returned : (outcome.1.map Call.operands).isOk = outcome.1.isOk := by
    rcases outcome with ⟨e | q, t₁⟩ <;> rfl
  rw [hooked]
  dsimp only at memory ⊢
  rw [memory, returned]
  rcases notes with ⟨m, noted, quiet, fails⟩ | ⟨g, t₁, called, noted, wrote, succeeds⟩
  · exact .inl ⟨m, noted, trans_of Quiet quiet (quiet_ended _), fails⟩
  · exact .inr ⟨g, t₁, called, noted, by rw [wrote]; rfl, succeeds⟩

end ShadowTaint
