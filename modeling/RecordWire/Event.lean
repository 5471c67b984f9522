/-!
Events raised on the way from a schema to generated code, and results that carry them.
-/

namespace RecordWire

inductive Level where
  | warn
  | info
  | debug
  deriving DecidableEq

def Level.word : Level → String
  | warn => "WARN"
  | info => "INFO"
  | debug => "DEBUG"

inductive Event where
  | shadowedPrimitive (record : String)
  | foreignType (record field typeName : String)
  | generatingRecord (record typeName : String) (isPacked : Bool) (fields allocators : Nat)
  | generationComplete (moduleName : String) (records bytes : Nat)
  | generated (records bytes : Nat)
  deriving DecidableEq

namespace Event

def level : Event → Level
  | shadowedPrimitive _ | foreignType _ _ _ => .warn
  | generated _ _ => .info
  | generatingRecord _ _ _ _ _ | generationComplete _ _ _ => .debug

def message : Event → String
  | shadowedPrimitive _ =>
    "record name shadows a primitive type; fields of this type resolve to the primitive"
  | foreignType _ _ _ => "unknown type, emitted verbatim as an opaque type"
  | generatingRecord _ _ _ _ _ => "generating record"
  | generationComplete _ _ _ => "generation complete"
  | generated _ _ => "generated"

/-- The named details of an event, as text. -/
def details : Event → List (String × String)
  | shadowedPrimitive record => [("record", record)]
  | foreignType record field typeName =>
    [("record", record), ("field", field), ("type_name", typeName)]
  | generatingRecord record typeName packed fields allocators =>
    [("record", record), ("type_name", typeName), ("packed", if packed then "true" else "false"),
    ("fields", toString fields), ("allocators", toString allocators)]
  | generationComplete moduleName records bytes =>
    [("module", moduleName), ("records", toString records), ("bytes", toString bytes)]
  | generated records bytes => [("records", toString records), ("bytes", toString bytes)]

end Event

/-- A result together with the events raised until it was reached, in order. -/
structure Traced (ε α : Type) where
  events : List Event
  result : Except ε α

namespace Traced

variable {ε ε' α β : Type}

def ofExcept (result : Except ε α) : Traced ε α :=
  ⟨[], result⟩

def raise (event : Event) : Traced ε Unit :=
  ⟨[event], .ok ()⟩

def bind (t : Traced ε α) (f : α → Traced ε β) : Traced ε β :=
  match t.result with
  | .error e => ⟨t.events, .error e⟩
  | .ok a =>
    let t' := f a
    ⟨t.events ++ t'.events, t'.result⟩

instance : Monad (Traced ε) where
  pure a := ⟨[], .ok a⟩
  bind := bind

def mapError (f : ε → ε') (t : Traced ε α) : Traced ε' α :=
  ⟨t.events, t.result.mapError f⟩

end Traced
end RecordWire
