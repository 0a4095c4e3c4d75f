import ShadowTaint.Eval.Rewrite
import ShadowTaint.Fault
import ShadowTaint.Heap.Basic
/-!
# Ghost functions

Functions without a body that the analysed program calls to set, clear and assert taint. They are
recognised by name when they are called.

## Main definitions

- `Ghost`: the functions, with their names and numbers of arguments.
- `Ghosts`: the functions that one run knows.
-/

namespace ShadowTaint

/-- The ghost functions. -/
inductive Ghost where
  | setTaint
  | clearTaint
  | setPropertyTaint
  | clearPropertyTaint
  | setRangeTaint
  | clearRangeTaint
  | checkTaint
  | checkTaintString
  | assertWrapped
  | assertNotWrapped
  | assertTainted
  | assertUntainted
  | assertSomePropertyTainted
  | assertPropertyTainted
  | assertPropertyUntainted
  | setSink
  | assertStringRangeTainted
  | assertStringRangeUntainted
  | assertArrayRangeTainted
  | assertArrayRangeUntainted
  | pushScope
  | popScope
deriving DecidableEq, Repr

namespace Ghost

/-- The functions that every run knows. -/
def always : List Ghost :=
  [.setTaint, .clearTaint, .setPropertyTaint, .clearPropertyTaint, .setRangeTaint,
   .clearRangeTaint, .checkTaint, .checkTaintString, .assertWrapped, .assertNotWrapped,
   .assertTainted, .assertUntainted, .assertSomePropertyTainted, .assertPropertyTainted,
   .assertPropertyUntainted, .setSink, .assertStringRangeTainted, .assertStringRangeUntainted,
   .assertArrayRangeTainted, .assertArrayRangeUntainted]

/-- All functions: those that every run knows, then the two that open and close scopes. -/
def all : List Ghost := always ++ [.pushScope, .popScope]

/-- The name under which a function is called. -/
def name : Ghost → String
  | .setTaint => "__jalangi_set_taint__"
  | .clearTaint => "__jalangi_clear_taint__"
  | .setPropertyTaint => "__jalangi_set_prop_taint__"
  | .clearPropertyTaint => "__jalangi_clear_prop_taint__"
  | .setRangeTaint => "__string_range_set_taint__"
  | .clearRangeTaint => "__string_range_clear_taint__"
  | .checkTaint => "__jalangi_check_taint__"
  | .checkTaintString => "__jalangi_check_taint_string__"
  | .assertWrapped => "__jalangi_assert_wrapped__"
  | .assertNotWrapped => "__jalangi_assert_not_wrapped__"
  | .assertTainted => "__jalangi_assert_taint_true__"
  | .assertUntainted => "__jalangi_assert_taint_false__"
  | .assertSomePropertyTainted => "__jalangi_assert_some_prop_tainted__"
  | .assertPropertyTainted => "__jalangi_assert_prop_taint_true__"
  | .assertPropertyUntainted => "__jalangi_assert_prop_taint_false__"
  | .setSink => "__jalangi_set_sink__"
  | .assertStringRangeTainted => "__assert_string_range_all_tainted__"
  | .assertStringRangeUntainted => "__assert_string_range_all_untainted__"
  | .assertArrayRangeTainted => "__assert_array_range_all_tainted__"
  | .assertArrayRangeUntainted => "__assert_array_range_all_untainted__"
  | .pushScope => Rewrite.openScope
  | .popScope => Rewrite.closeScope

/-- How many arguments a function takes. -/
def arity : Ghost → Nat
  | .pushScope | .popScope => 0
  | .setPropertyTaint | .clearPropertyTaint | .assertPropertyTainted
  | .assertPropertyUntainted => 2
  | .setRangeTaint | .clearRangeTaint | .assertStringRangeTainted | .assertStringRangeUntainted
  | .assertArrayRangeTainted | .assertArrayRangeUntainted => 3
  | _ => 1

/-- Whether the function only checks or asserts. Where the settings say so, such a function ends
the run when it succeeds. -/
def isAssertion : Ghost → Bool
  | .setTaint | .clearTaint | .setPropertyTaint | .clearPropertyTaint | .setRangeTaint
  | .clearRangeTaint | .setSink | .pushScope | .popScope => false
  | _ => true

end Ghost

/-- The ghost functions that one run knows. -/
structure Ghosts where
  declared : List Ghost := []
deriving Repr

namespace Ghosts

/-- The function with a name. -/
def named? (g : Ghosts) (name : String) : Option Ghost :=
  g.declared.find? fun ghost => ghost.name == name

/-- Declares a function, which must not have been declared before. -/
def register (g : Ghosts) (ghost : Ghost) : Except Violation Ghosts :=
  if (g.named? ghost.name).isSome then .error .ghostDeclaredTwice
  else .ok ⟨g.declared ++ [ghost]⟩

/-- The functions of a run. Scopes are opened and closed only where evaluating tainted code is not
a finding. -/
def standard (evalSink : Bool) : Ghosts := ⟨if evalSink then Ghost.always else Ghost.all⟩

/-- The ghost function that a value, its shadow put aside, stands for. Native functions never
are. -/
def find? (g : Ghosts) (h : Heap) (f : Value) : Option Ghost :=
  match h.function? f with
  | none => none
  | some function => if function.isNative then none else g.named? function.name

/-- Defines the functions on the global object, in the order of their names. -/
def install (g : Ghosts) (h : Heap) : Heap :=
  ((g.declared.map Ghost.name).mergeSort fun a b => decide (a ≤ b)).foldl (fun h name =>
    let (f, h) := h.allocScript name
    h.setProperty Heap.global name f) h

end Ghosts

end ShadowTaint
