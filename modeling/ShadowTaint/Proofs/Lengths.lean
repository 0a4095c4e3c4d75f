import ShadowTaint.Proofs.Notes
import ShadowTaint.Proofs.Persistence
/-!
# Tainted characters and tainted lengths

A string of which a character is tainted has a tainted length. Every rule keeps that, as does every ghost
function that taints or clears a whole value, a character or a range of characters. Clearing the key
`length` on its own does not look at the characters.

## Main definitions

- `Memory.LengthsShow`: where a character is recorded as tainted, so is the length.
- `Hook.HidesLength`: the length of a string with a tainted character is cleared.

## Main statements

- `Deed.lengthsShow`, `Ghost.lengthsShow_run`: steps and all other ghost functions keep lengths tainted.
- `Session.lengthsShow_iff`: lengths show all the time exactly if none is ever cleared in this way.
- `Session.length_hidden`: a run in which one is.
-/

namespace ShadowTaint

open Memory Tracker Policy

/-- Where a character is tainted, so is the length. -/
def CharMap.ShowsLength (map : CharMap) : Prop := true ∈ map.chars → map.length = true

namespace CharMap

theorem showsLength_uniform (count : Nat) (tainted : Bool) : (uniform count tainted).ShowsLength :=
  fun mem => (List.eq_of_mem_replicate mem).symm

theorem showsLength_ofBits (bits : List Bool) : (ofBits bits).ShowsLength :=
  fun mem => List.any_eq_true.mpr ⟨true, mem, rfl⟩

variable {map map' : CharMap} {key : String}

/-- To taint a character, or the length, taints the length. -/
theorem showsLength_set?_true (set : map.set? key true = some map') : map'.ShowsLength := by
  unfold set? at set
  split at set
  · cases set
    exact fun _ => rfl
  · split at set
    · cases set
    · split at set <;> cases set
      exact fun _ => Bool.or_true map.length

/-- To clear a character leaves the length alone, and no other character becomes tainted. -/
theorem showsLength_set?_false (shows : map.ShowsLength) (other : key ≠ "length")
    (set : map.set? key false = some map') : map'.ShowsLength := by
  unfold set? at set
  rw [if_neg other] at set
  split at set
  · cases set
  · split at set <;> cases set
    intro mem
    show (map.length || false) = true
    rw [Bool.or_false]
    rcases List.mem_or_eq_of_mem_set mem with old | new
    · exact shows old
    · cases new

end CharMap

namespace Memory

variable {m : Memory} {v : Value}

theorem chars_entryOf {map : CharMap} (recorded : (m.stored? v).bind (·.chars) = some map) :
    (m.entryOf v).chars = some map := by
  obtain ⟨e, stored, chars⟩ := Option.bind_eq_some_iff.mp recorded
  rwa [entryOf, stored]

/-- A value for which no map is recorded has no tainted character. -/
theorem untainted_of_unrecorded (unrecorded : (m.stored? v).bind (·.chars) = none) (count : Nat) :
    true ∉ ((m.entryOf v).chars.getD (.uniform count false)).chars := by
  have clean (count : Nat) : true ∉ (CharMap.uniform count false).chars := fun mem => by
    cases List.eq_of_mem_replicate mem
  rw [entryOf]
  rcases stored : m.stored? v with _ | e
  · rcases raw : m.stringOf? v with _ | text
    · simpa [charMap?, raw] using clean count
    · simpa [charMap?, raw] using clean text.length
  · rw [stored, Option.bind_some] at unrecorded
    simpa [unrecorded] using clean count

end Memory

/-- Where a character is recorded as tainted, so is the length of the string. -/
def Memory.LengthsShow (m : Memory) : Prop :=
  ∀ key e map, m.shadow.entries.get? key = some e → e.chars = some map → map.ShowsLength

namespace Memory.LengthsShow

variable {m m' : Memory} {v : Value} {bit : Bool} {chars : Option CharMap}

theorem quiet (h : m.LengthsShow) (quiet : m.Quiet m') : m'.LengthsShow := by
  intro key e map found
  rw [quiet.entries] at found
  exact h key e map found

theorem stored {e : TaintEntry} {map : CharMap} (h : m.LengthsShow) (stored : m.stored? v = some e)
    (chars : e.chars = some map) : map.ShowsLength := by
  obtain ⟨key, -, found⟩ := Option.bind_eq_some_iff.mp stored
  exact h key e map found chars

theorem showsLength_charMap? {tainted : Bool} {map : CharMap}
    (made : m.charMap? v tainted = some map) : map.ShowsLength := by
  obtain ⟨text, -, rfl⟩ := Option.map_eq_some_iff.mp made
  exact CharMap.showsLength_uniform _ _

theorem entryOf {map : CharMap} (h : m.LengthsShow) (chars : (m.entryOf v).chars = some map) :
    map.ShowsLength := by
  rw [Memory.entryOf] at chars
  rcases found : m.stored? v with _ | e <;> rw [found] at chars
  · exact showsLength_charMap? chars
  · exact h.stored found chars

theorem writes (h : m.LengthsShow) (writes : m.Writes m' v bit chars)
    (shows : ∀ map, chars = some map → map.ShowsLength) : m'.LengthsShow := by
  obtain ⟨path, entries⟩ := writes.stored
  intro key e map found recorded
  rw [entries] at found
  split at found
  · cases found
    exact shows map recorded
  · exact h key e map found recorded

theorem tallies (h : m.LengthsShow) (tallies : m.Tallies m') : m'.LengthsShow := by
  intro key e map found recorded
  rcases tallies.entries key e found with old | ⟨-, chars⟩ | ⟨-, -, -, chars⟩
  · exact h key e map old recorded
  · exact showsLength_charMap? (chars.symm.trans recorded)
  · obtain rfl := Option.some.inj (chars.symm.trans recorded)
    exact CharMap.showsLength_ofBits _

theorem retells (h : m.LengthsShow) (retells : m.Retells m') : m'.LengthsShow := by
  intro key e' map found recorded
  rcases retells.entries key e' found with ⟨e, found, -, chars⟩ | ⟨v, -, -, chars⟩
  · exact h key e map found (chars.symm.trans recorded)
  · exact showsLength_charMap? (chars.symm.trans recorded)

section Words

theorem wrapWord (h : m.LengthsShow) (base : List Bool) (path : Provenance.Node) (start : Nat)
    (word : Value) : (TextRule.wrapWord base path start word m).2.LengthsShow := by
  have shadowed := h.quiet (MemoryM.quiet_wrapFresh (m.valueOf word) m)
  refine shadowed.writes (MemoryM.writes_record (.refl _) _ _ _ _ _) fun map recorded => ?_
  cases recorded
  exact CharMap.showsLength_ofBits _

theorem wrapWords (h : m.LengthsShow) (base : List Bool) (path : Provenance.Node)
    (separator start : Nat) (words : List Value) :
    (TextRule.wrapWords base path separator start words m).2.LengthsShow := by
  induction words generalizing m start with
  | nil => exact h
  | cons word rest ih =>
    rw [TextRule.wrapWords_cons]
    exact ih (h.wrapWord base path start word) _

theorem setBit (h : m.LengthsShow) (v : Value) : (TextRule.setBit v m).2.LengthsShow :=
  h.writes (TextRule.writes_setBit v m) fun _ => h.entryOf

theorem split (h : m.LengthsShow) (levels : Levels) (c : NativeCall) :
    (TextRule.split levels c m).2.LengthsShow := by
  have words (words : List Value) : (TextRule.afterWords c words m).LengthsShow :=
    ((h.quiet ((NodesUsed.refl m).more 1).quiet).wrapWords _ _ _ _ words).quiet ⟨rfl, Nat.le_refl _⟩
  rw [TextRule.split_apply]
  split
  · exact h
  · split
    · exact h
    · split
      · dsimp only
        split
        · exact (words _).setBit _
        · exact words _
      · dsimp only
        split
        · exact h.setBit _
        · exact h

end Words

end Memory.LengthsShow

/-- Every step keeps the length tainted where a character is. -/
theorem Deed.lengthsShow (d : Deed) (levels : Levels) {m : Memory} (h : m.LengthsShow) :
    (d.run levels m).2.LengthsShow := by
  rcases d.run_cases levels m with tallies | departs
  · exact h.tallies tallies
  · generalize (d.run levels m).2 = m' at departs ⊢
    cases departs with
    | known _ stored writes => exact h.writes writes fun _ => h.stored stored
    | unknown _ _ writes | unary writes =>
      exact h.writes writes fun _ => Memory.LengthsShow.showsLength_charMap?
    | code _ _ writes => exact h.writes writes nofun
    | container writes | noted writes => exact h.writes writes fun _ => h.entryOf
    | words _ _ run =>
      rw [run]
      exact h.split levels _

theorem Memory.lasting_lengthsShow : Lasting LengthsShow where
  quiet quiet h := h.quiet quiet
  relabel v label m h := h.writes (MemoryM.writes_relabel v label m) fun _ => h.entryOf

/-- Writing under a key keeps lengths tainted, unless it clears the key of the length. -/
theorem Memory.inherits_setPropertyTaint {key : String} {tainted : Bool}
    (spared : tainted = true ∨ key ≠ "length") (v : Value) :
    Within (Inherits LengthsShow) (CheckedM.setPropertyTaint v key tainted) := by
  intro m h
  rcases MemoryM.setPropertyTaint_cases v key tainted m with
    ⟨e, m', run, used⟩ | ⟨text, map, m', -, set, run, writes⟩
  · rw [run]
    exact h.quiet used.quiet
  · rw [run]
    refine h.writes writes fun map' same => ?_
    cases same
    have before : ((m.entryOf v).chars.getD (.uniform text.length false)).ShowsLength := by
      rcases chars : (m.entryOf v).chars with _ | old
      · exact CharMap.showsLength_uniform _ _
      · exact h.entryOf chars
    rcases spared with rfl | other
    · exact CharMap.showsLength_set?_true set
    · cases tainted with
      | true => exact CharMap.showsLength_set?_true set
      | false => exact CharMap.showsLength_set?_false before other set

namespace Ghost

variable {R : Tracker → Tracker → Prop} [IsPreorder Tracker R]

/-- Apart from what it does with the arguments that it takes, a function changes nothing. -/
theorem within_run_of_effect {g : Ghost} {args : List Value} (h : Within R (g.effect args)) :
    Within R (g.run args) := by
  have ends : Within R (do
      g.effect args
      if (← get).settings.assertPassed && g.isAssertion then throw Fault.completed : HookM Unit) := by
    refine .bind_except h fun _ => .bind_except .get_except fun t => ?_
    split
    · exact .throw _
    · exact .pure_except _
  unfold Ghost.run
  split
  · exact .throw _
  · exact ends

theorem lengthsShow_setRange (v : Value) (start count : Nat) :
    Within (Follows (Inherits LengthsShow)) (setRange v false start count) := by
  induction count generalizing start with
  | zero => exact .pure_except _
  | succ count ih =>
    exact .bind_except (HookM.follows_onMemory
      (inherits_setPropertyTaint (.inr (Text.toString_ne_length start)) v)) fun _ => ih _

/-- All ghost functions but the one that clears a single key keep lengths tainted. -/
theorem lengthsShow_run {g : Ghost} (other : g ≠ .clearPropertyTaint) (args : List Value) :
    Within (Follows (Inherits LengthsShow)) (g.run args) := by
  have whole (tainted : Bool) (v : Value) :
      Within (Inherits LengthsShow) (MemoryM.setTaint v tainted) :=
    fun m h => h.tallies (MemoryM.tallies_setTaint v tainted m)
  by_cases clears : g.writes? = some false
  · refine within_run_of_effect ?_
    cases g <;> cases clears
    · exact .bind_except .get_except fun t => HookM.follows_onMemory (.lift (whole false _))
    · exact absurd rfl other
    · refine .bind_except .get_except fun t => .bind_except ?_ fun _ => lengthsShow_setRange _ _ _
      refine .bind_except .get_except fun t => ?_
      dsimp only
      split
      · exact .pure_except _
      · exact .throw _
  · refine within_run (allowed_follows lasting_lengthsShow.history (fun tainted v _ => whole tainted v)
      fun tainted v key writes => inherits_setPropertyTaint (.inl ?_) v) args
    cases tainted with
    | true => rfl
    | false => exact absurd writes clears

/-- A function that is no assertion and gets as many arguments as it takes does just what it is for. -/
theorem run_of_arity {g : Ghost} {args : List Value} (count : args.length = g.arity)
    (silent : g.isAssertion = false) (t : Tracker) : g.run args t = g.effect args t := by
  have run : g.run args = (do
      g.effect args
      if (← get).settings.assertPassed && g.isAssertion then throw .completed) := by
    unfold Ghost.run
    rw [if_neg (by simp [count])]
  rw [run]
  rcases effect : g.effect args t with ⟨e | ⟨⟩, t'⟩
  · rw [bind_apply_error effect]
  · rw [bind_apply_ok effect, get_bind_apply, silent, Bool.and_false]
    rfl

/-- What clearing a single key does. -/
theorem run_clearPropertyTaint (v key : Value) (t : Tracker) :
    clearPropertyTaint.run [v, key] t =
      HookM.onMemory (CheckedM.setPropertyTaint v (t.memory.keyText key) false) t :=
  run_of_arity rfl rfl t

variable {t : Tracker}

/-- If a length does not show after a single key was cleared, the key is that of the length, and it was
cleared for a string with a tainted character. -/
theorem hides_of_run {args : List Value} (shows : t.memory.LengthsShow)
    (hidden : ¬ (clearPropertyTaint.run args t).2.memory.LengthsShow) :
    ∃ v key map, args = [v, key] ∧ t.memory.keyText key = "length" ∧
      (t.memory.stored? v).bind (·.chars) = some map ∧ true ∈ map.chars ∧
      (clearPropertyTaint.run args t).1.isOk = true := by
  by_cases count : args.length = 2
  · obtain ⟨v, key, rfl⟩ := List.length_eq_two.mp count
    rw [run_clearPropertyTaint, HookM.onMemory_apply] at hidden ⊢
    by_cases length : t.memory.keyText key = "length"
    · rcases MemoryM.setPropertyTaint_cases v (t.memory.keyText key) false t.memory with
        ⟨e, m', run, used⟩ | ⟨text, map, m', -, set, run, writes⟩
      · rw [run] at hidden
        exact absurd (shows.quiet used.quiet) hidden
      · rw [run] at hidden ⊢
        rw [length, CharMap.set?, if_pos rfl] at set
        by_contra sound
        refine hidden (shows.writes writes fun map' same => ?_)
        cases same
        cases set
        intro tainted
        rcases stored : (t.memory.stored? v).bind (·.chars) with _ | old
        · -- Without a map of its own the string has no tainted character.
          exact (untainted_of_unrecorded stored text.length tainted).elim
        · refine absurd ⟨v, key, old, rfl, length, stored, ?_, rfl⟩ sound
          rwa [chars_entryOf stored] at tainted
    · exact absurd (inherits_setPropertyTaint (.inr length) v t.memory shows) hidden
  · have refused : clearPropertyTaint.run args t = (.error (.assertion
        (.argumentCount clearPropertyTaint.name clearPropertyTaint.arity args.length)), t) := by
      unfold Ghost.run
      rw [if_pos (by simpa [arity] using count)]
      rfl
    rw [refused] at hidden
    exact absurd shows hidden

/-- Clearing the key of the length does not look at the characters. -/
theorem not_lengthsShow_run {v key : Value} {map : CharMap} (length : t.memory.keyText key = "length")
    (chars : (t.memory.stored? v).bind (·.chars) = some map) (tainted : true ∈ map.chars)
    (ok : (clearPropertyTaint.run [v, key] t).1.isOk = true) :
    ¬ (clearPropertyTaint.run [v, key] t).2.memory.LengthsShow := by
  rw [run_clearPropertyTaint, HookM.onMemory_apply] at ok ⊢
  rcases MemoryM.setPropertyTaint_cases v (t.memory.keyText key) false t.memory with
    ⟨e, m', run, -⟩ | ⟨text, map', m', -, set, run, writes⟩
  · rw [run] at ok
    cases ok
  · rw [run]
    rw [length, CharMap.set?, if_pos rfl, chars_entryOf chars] at set
    cases set
    obtain ⟨home, keyed⟩ : ∃ home, t.memory.shadow.keyOf v = some home := by
      obtain ⟨e, stored, -⟩ := Option.bind_eq_some_iff.mp chars
      obtain ⟨home, keyed, -⟩ := Option.bind_eq_some_iff.mp stored
      exact ⟨home, keyed⟩
    obtain ⟨path, entries⟩ := writes.stored
    intro shows
    have found := entries home
    rw [if_pos keyed] at found
    cases shows home _ _ found rfl tainted

end Ghost

namespace Hook

/-- The hook clears the key of the length, of a string of which a character is tainted. -/
def HidesLength (h : Hook) (t : Tracker) : Prop :=
  ∃ c v key map, h = .callPre c ∧ t.ghostOf? c = some .clearPropertyTaint ∧ c.args = [v, key] ∧
    t.memory.keyText key = "length" ∧ (t.memory.stored? v).bind (·.chars) = some map ∧
    true ∈ map.chars ∧ (h.run t).1.isOk = true

theorem lengthsShow (h : Hook) {t : Tracker} (shows : t.memory.LengthsShow)
    (spared : ¬ h.HidesLength t) : (h.run t).2.memory.LengthsShow := by
  by_cases other : ∀ c, h ≠ .callPre c
  · exact h.lasts lasting_lengthsShow (fun c _ _ called => absurd called (other c))
      (fun d m _ _ shows => d.lengthsShow _ shows) shows
  · obtain ⟨c, rfl⟩ : ∃ c, h = .callPre c := by simpa using other
    rcases callPre_cases c t with ⟨m, retells, quiet, -⟩ | ⟨g, t₁, called, retells, memory, returned⟩
    · exact (shows.retells retells).quiet quiet
    · have noted := shows.retells retells
      rw [memory]
      refine Memory.LengthsShow.quiet ?_ (quiet_ended _)
      by_cases clears : g = .clearPropertyTaint
      · subst clears
        by_contra hidden
        obtain ⟨v, key, map, args, key, chars, tainted, ran⟩ := Ghost.hides_of_run noted hidden
        refine spared ⟨c, v, _, map, rfl, called, args, ?_, ?_, tainted, returned.trans ran⟩
        · rw [← retells.keyText, key]
        · rwa [← retells.character_iff v map tainted]
      · exact (Ghost.lengthsShow_run clears c.args t₁).memory noted

/-- A length that is cleared does not show. -/
theorem not_lengthsShow (h : Hook) {t : Tracker} (hides : h.HidesLength t) :
    ¬ (h.run t).2.memory.LengthsShow := by
  obtain ⟨c, v, key, map, rfl, called, args, length, chars, tainted, ok⟩ := hides
  rcases callPre_cases c t with ⟨m, -, -, failed⟩ | ⟨g, t₁, called', retells, memory, returned⟩
  · cases ok.symm.trans (failed _ called)
  · cases called.symm.trans called'
    rw [memory, args]
    intro shows
    rw [args] at returned
    rw [← retells.keyText] at length
    rw [← retells.character_iff v map tainted] at chars
    exact Ghost.not_lengthsShow_run length chars tainted (returned.symm.trans ok)
      (shows.quiet ⟨rfl, Nat.le_refl _⟩)

end Hook

namespace Session

/-- The event is a hook that clears the length of a string of which a character is tainted. -/
def HidesLength (s : Session) : Event → Prop
  | .hook h => h.HidesLength s.tracker
  | .host _ => False

/-- In every run from every heap, in which hooks are called in any order and may fail, every recorded map
with a tainted character has a tainted length, all the time, exactly if the length of a string of which a
character is tainted is never cleared on its own. -/
theorem lengthsShow_iff (settings : Settings) (heap : Heap) (events : List Event) :
    (start settings heap).Always (fun s => s.tracker.memory.LengthsShow) events ↔
      (start settings heap).Avoids HidesLength events := by
  constructor
  · refine avoids_of_always fun s e _ hides => ?_
    cases e with
    | hook h => exact h.not_lengthsShow hides
    | host heap => exact hides.elim
  · refine always_of_avoids (fun s e shows spared => ?_) ?_
    · cases e with
      | hook h => exact h.lengthsShow shows spared
      | host heap => exact shows
    · intro key e map found
      cases found

/-- A heap with the functions that taint values and clear single keys. -/
def sourceAndEraser : Heap :=
  ⟨#[{ kind := .function { name := "__jalangi_set_taint__" } },
    { kind := .function { name := "__jalangi_clear_prop_taint__" } }]⟩

/-- A string is tainted as a whole, and then its length is cleared. -/
def clearedLength : List Event :=
  [.host sourceAndEraser, .hook (.literal (.string "ab")),
    .hook (.callPre { f := .object 0, base := .undefined, site := 0
                      args := [.shadow ⟨0⟩ ⟨0⟩ (.string "ab")] }),
    .hook (.callPre { f := .object 1, base := .undefined, site := 0
                      args := [.shadow ⟨0⟩ ⟨0⟩ (.string "ab"), .string "length"] })]

/-- Both characters of the string stay tainted when its length is cleared. -/
theorem length_hidden : Reachable (run (start {} ⟨#[]⟩) clearedLength).tracker ∧
    ¬ (run (start {} ⟨#[]⟩) clearedLength).tracker.memory.LengthsShow := by
  refine ⟨reachable_run (.start {} ⟨#[]⟩) clearedLength, fun shows => ?_⟩
  have recorded : ((run (start {} ⟨#[]⟩) clearedLength).tracker.memory.shadow.entries.get?
      (.identity ⟨0⟩)).bind (·.chars) = some ⟨[true, true], false⟩ := by decide +kernel
  obtain ⟨e, found, chars⟩ := Option.bind_eq_some_iff.mp recorded
  cases shows _ e _ found chars List.mem_cons_self

end Session

end ShadowTaint
