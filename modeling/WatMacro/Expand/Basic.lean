import WatMacro.Context
import WatMacro.Error

/-!
# Expansions

An expansion runs on a context and yields a result or an error, and in either case the context
afterwards: an expansion that fails keeps what was collected before.

Results:

* `bind_ok`, `bind_error`: an expansion goes on after a result and stops at an error.
-/

namespace WatMacro

/-- A computation that may fail and that collects into a context. -/
def Expand (α : Type) : Type :=
  Context → Except Error α × Context

namespace Expand

instance : Monad Expand where
  pure value := fun context => (.ok value, context)
  bind first next := fun context =>
    match first context with
    | (.ok value, context) => next value context
    | (.error error, context) => (.error error, context)

/-- Stops with an error. -/
def fail {α : Type} (error : Error) : Expand α :=
  fun context => (.error error, context)

/-- Looks something up in the context. -/
def look {α : Type} (view : Context → α) : Expand α :=
  fun context => (.ok (view context), context)

/-- Changes the context. -/
def update (change : Context → Context) : Expand Unit :=
  fun context => (.ok (), change context)

/-- Changes the context and takes what the change yields. -/
def updateGet {α : Type} (change : Context → α × Context) : Expand α :=
  fun context =>
    let (value, context) := change context
    (.ok value, context)

/-- A result or an error that is known already. -/
def ofExcept {α : Type} (result : Except Error α) : Expand α :=
  fun context => (result, context)

theorem pure_apply {α : Type} (value : α) (context : Context) :
    (pure value : Expand α) context = (.ok value, context) :=
  rfl

theorem bind_apply {α β : Type} (first : Expand α) (next : α → Expand β) (context : Context) :
    (first >>= next) context =
      match first context with
      | (.ok value, context) => next value context
      | (.error error, context) => (.error error, context) :=
  rfl

theorem bind_ok {α β : Type} {first : Expand α} {context context' : Context} {value : α}
    (h : first context = (.ok value, context')) (next : α → Expand β) :
    (first >>= next) context = next value context' := by
  rw [bind_apply, h]

theorem bind_error {α β : Type} {first : Expand α} {context context' : Context} {error : Error}
    (h : first context = (.error error, context')) (next : α → Expand β) :
    (first >>= next) context = (.error error, context') := by
  rw [bind_apply, h]

end Expand

end WatMacro
