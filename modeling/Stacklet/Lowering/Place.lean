import Stacklet.Lowering.Basic

/-!
# Lowering places

Storing into a place takes its address, which is nothing for a local and the receiver for a field.
The address stays on the stack below all that is computed until the value is stored.
-/

namespace Stacklet.Place

open Lower

/-- Leaves the address of a place on the stack. -/
def address : Place → Lower Unit
  | .ofLocal _ => return ()
  | .ofField _ => add .loadThis

/-- Leaves the value of a place on the stack, above its address. -/
def fetch : Place → Lower Unit
  | .ofLocal var => add (.load var.ty.storage var.slot)
  | .ofField field => do
    add .dup
    add (.getField field.index)

/-- Copies the value on top of the stack below the address, so that a copy is left by the store. -/
def keepCopy : Place → Lower Unit
  | .ofLocal _ => add .dup
  | .ofField _ => add .dupX1

/-- Stores the value on top of the stack, and uses up the address. -/
def store : Place → Lower Unit
  | .ofLocal var => add (.store var.ty.storage var.slot)
  | .ofField field => add (.putField field.index)

/-- Leaves the value of a place on the stack, for reading only. -/
def read : Place → Lower Unit
  | .ofLocal var => add (.load var.ty.storage var.slot)
  | .ofField field => do
    add .loadThis
    add (.getField field.index)

end Stacklet.Place
