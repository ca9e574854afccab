import TypeLattice.Json.Value
import TypeLattice.Expr.Parse
/-!
# Type sets in JSON

A type set is declared by an object with a name, a version and the types, each of which has a
parent and attributes; either may be given as an array of these in order. Types are written as texts
of type expressions, which are read last.
-/

namespace TypeLattice

/-- An attribute as it is written: the text of its type, and a default value. -/
structure WrittenAttribute where
  type : String
  default : Option Value := none

structure WrittenObject where
  parent : Option String := none
  attributes : List (String × WrittenAttribute) := []

structure WrittenTypeSet where
  name : String
  version : Option String := none
  types : List (String × WrittenObject) := []

namespace WrittenAttribute

/-- The fields of an attribute, each given at most once. -/
def ofFields? : List (String × Json) → Option String × Option Value →
    Option (Option String × Option Value)
  | [], found => some found
  | ("type", .string t) :: fs, (none, v) => ofFields? fs (some t, v)
  | ("value", j) :: fs, (t, none) =>
    match Value.ofJson j with
    | .ok v => ofFields? fs (t, some v)
    | .error _ => none
  | _, _ => none

/-- The attribute that is written as a type alone, or with a default value. -/
def ofJson? : Json → Option WrittenAttribute
  | .string t => some { type := t }
  | .object fs =>
    match ofFields? fs (none, none) with
    | some (some t, v) => some { type := t, default := v }
    | _ => none
  | .array [.string t] => some { type := t }
  | .array [.string t, j] =>
    match Value.ofJson j with
    | .ok v => some { type := t, default := some v }
    | .error _ => none
  | _ => none

end WrittenAttribute

namespace JsonReader

variable {α : Type}

/-- Something in brackets or braces, which count as one level of nesting. -/
def nested (depth : Nat) (inner : Nat → JsonReader α) : JsonReader α :=
  match depth with
  | 0 => throw .malformed
  | depth + 1 => do
    drop
    inner depth

/-- Entries by name, the last of each name in the place of the first. -/
def mapOf (depth : Nat) (entry : Nat → JsonReader α) : JsonReader (List (String × α)) := do
  match ← peek with
  | some '{' =>
    nested depth fun depth => do
      let es ← entries (fun es k => do
        colon
        return put k (← entry depth) es) []
      close '}'
      return es
  | _ => unexpected "a map"

def writtenAttribute (depth : Nat) : JsonReader WrittenAttribute := do
  match WrittenAttribute.ofJson? (← value Json.builder depth) with
  | some a => return a
  | none => mismatch (.noVariant "RawAttribute")

/-- The value of a field that has not been given before. -/
def field (name : String) (old : Option α) (reader : JsonReader α) : JsonReader (Option α) := do
  if old.isSome then mismatch (.duplicateField name)
  else
    colon
    return some (← reader)

/-- The next element, if there is one. -/
def element? (first : Bool) (reader : JsonReader α) : JsonReader (Option α) := do
  if ← hasElement first then return some (← reader) else return none

structure ObjectFields where
  parent : Option (Option String) := none
  attributes : Option (List (String × WrittenAttribute)) := none

def ObjectFields.toObject (f : ObjectFields) : WrittenObject :=
  { parent := f.parent.getD none, attributes := f.attributes.getD [] }

def objectField (depth : Nat) (f : ObjectFields) (k : String) : JsonReader ObjectFields := do
  if k = "parent" then return { f with parent := ← field k f.parent string? }
  else if k = "attributes" then
    return { f with attributes := ← field k f.attributes (mapOf depth writtenAttribute) }
  else mismatch (.unknownField k ["parent", "attributes"])

def object (depth : Nat) : JsonReader WrittenObject := do
  match ← peek with
  | some '{' =>
    nested depth fun depth => do
      let f ← entries (objectField depth) {}
      close '}'
      return f.toObject
  | some '[' =>
    nested depth fun depth => do
      let parent ← element? true string?
      let attributes ← element? parent.isNone (mapOf depth writtenAttribute)
      close ']'
      return ({ parent, attributes } : ObjectFields).toObject
  | _ => unexpected "struct RawObject"

structure TypeSetFields where
  name : Option String := none
  version : Option (Option String) := none
  types : Option (List (String × WrittenObject)) := none

def typeSetField (depth : Nat) (f : TypeSetFields) (k : String) : JsonReader TypeSetFields := do
  if k = "name" then return { f with name := ← field k f.name string }
  else if k = "version" then return { f with version := ← field k f.version string? }
  else if k = "types" then return { f with types := ← field k f.types (mapOf depth object) }
  else mismatch (.unknownField k ["name", "version", "types"])

/-- The type set with the fields given. It has to have a name. -/
def TypeSetFields.toTypeSet (f : TypeSetFields) (unnamed : JsonMismatch) :
    JsonReader WrittenTypeSet :=
  match f.name with
  | some name => return { name, version := f.version.getD none, types := f.types.getD [] }
  | none => mismatch unnamed

def typeSet (depth : Nat) : JsonReader WrittenTypeSet := do
  match ← peek with
  | some '{' =>
    nested depth fun depth => do
      let t ← (← entries (typeSetField depth) {}).toTypeSet (.missingField "name")
      close '}'
      return t
  | some '[' =>
    nested depth fun depth => do
      let name ← element? true string
      let unnamed := JsonMismatch.tooShort 0 "struct RawTypeSet with 3 elements"
      if name.isNone then mismatch unnamed
      else
        let version ← element? false string?
        let types ← element? false (mapOf depth object)
        close ']'
        ({ name, version, types } : TypeSetFields).toTypeSet unnamed
  | _ => unexpected "struct RawTypeSet"

end JsonReader

namespace WrittenAttribute

def toDecl (a : WrittenAttribute) : Except TypeError (AttributeDecl TypeExpr) := do
  return { type := ← TypeExpr.parse a.type, default := a.default.map .literal }

def toDecls : List (String × WrittenAttribute) →
    Except TypeError (List (String × AttributeDecl TypeExpr))
  | [] => .ok []
  | (k, a) :: rest => do
    let d ← a.toDecl
    return (k, d) :: (← toDecls rest)

end WrittenAttribute

namespace WrittenObject

def toDecl (o : WrittenObject) : Except TypeError ObjectDecl := do
  let parent ← match o.parent with
    | none => pure none
    | some text => do pure (some (← TypeExpr.parse text))
  return { parent, attributes := ← WrittenAttribute.toDecls o.attributes }

def toDecls : List (String × WrittenObject) → Except TypeError (List (String × ObjectDecl))
  | [] => .ok []
  | (k, o) :: rest => do
    let d ← o.toDecl
    return (k, d) :: (← toDecls rest)

end WrittenObject

namespace TypeSetDecl

def ofWritten (t : WrittenTypeSet) : Except TypeError TypeSetDecl := do
  let types ← WrittenObject.toDecls t.types
  return { name := t.name, version := t.version, types := Table.ofList types }

def ofJsonText (text : String) : Except JsonFault TypeSetDecl :=
  JsonReader.document (do
    match ofWritten (← JsonReader.typeSet JsonReader.nestingLimit) with
    | .ok d => return d
    | .error e => JsonReader.mismatch (.type e)) text

end TypeSetDecl
end TypeLattice
