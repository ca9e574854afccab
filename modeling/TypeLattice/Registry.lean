import TypeLattice.TypeSet.Build
/-!
# Registries

A registry gives names to types. A name in it is not blank, is not that of a built-in type, and is
given once. Names that a registry does not hold stand for the built-in types.
-/

namespace TypeLattice

structure Registry where
  entries : Table Ty := .empty

namespace Registry

def get? (r : Registry) (name : String) : Option Ty := r.entries.get? name

def contains (r : Registry) (name : String) : Bool := r.entries.contains name

def size (r : Registry) : Nat := r.entries.size

def remove (r : Registry) (name : String) : Registry := ⟨r.entries.erase name⟩

/-- The names in the order of their code points. -/
def names (r : Registry) : List String := r.entries.keys.mergeSort (· ≤ ·)

def resolver (r : Registry) : Resolver := fun name => r.get? name <|> Resolver.builtins name

/-- A name that stands for a built-in type or for an entry. -/
def isTaken (r : Registry) (name : String) : Bool :=
  (Resolver.builtins name).isSome || r.contains name

/-- Adds an entry under a name that is free. -/
def register (r : Registry) (name : String) (t : Ty) : Except TypeError Registry :=
  if Text.allBlank name then .error (.invalidName name)
  else if r.isTaken name then .error (.alreadyExists name)
  else .ok ⟨r.entries.insert name t⟩

/-- The names that a type set is registered under: those of its members, qualified, and its
own. -/
def setNames (setName : String) (members : List (String × Ty)) : List String :=
  members.map (fun e => Text.qualify setName e.1) ++ [setName]

/-- The entries for a type set: the set itself, then its members under their qualified names. -/
def setEntries (setName : String) (t : SetId) (members : List (String × Ty)) :
    List (String × Ty) :=
  (setName, .typeSet t) :: members.map fun e => (Text.qualify setName e.1, e.2)

end Registry

/-- A store and a registry of types in it. -/
structure Catalogue where
  store : Store := {}
  registry : Registry := {}

/-- Computations that build types and register them. What was built and what was registered before
an error stays. -/
abbrev Registering := EStateM TypeError Catalogue

namespace Registering

variable {α : Type}

def building (x : Building α) : Registering α := fun c =>
  match x c.store with
  | .ok a s => .ok a { c with store := s }
  | .error e s => .error e { c with store := s }

def add (name : String) (t : Ty) : Registering Unit := do
  let c ← get
  match c.registry.register name t with
  | .ok r => set { c with registry := r }
  | .error e => throw e

def addAll : List (String × Ty) → Registering Unit
  | [] => return ()
  | (name, t) :: rest => do
    add name t
    addAll rest

/-- Builds a type set and registers it with its members. All names are looked at before the first
is added. -/
def typeSet (d : TypeSetDecl) : Registering SetId := do
  let t ← building (Building.typeSet (← get).registry.resolver d)
  let c ← get
  let members := (c.store.set t).members.entries
  match (Registry.setNames d.name members).find? c.registry.isTaken with
  | some name => throw (.alreadyExists name)
  | none =>
    addAll (Registry.setEntries d.name t members)
    return t

end Registering
end TypeLattice
