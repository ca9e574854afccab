import TypeLattice.Object.Resolve
/-!
# Making objects from arguments

An object type without a constructor takes the values of its attributes by position. Arguments at
the end may be left out if the attributes there have default values.
-/

namespace TypeLattice.Store

/-- How many arguments there must be: up to the last attribute without a default value. -/
def requiredCount (attributes : List (String × Attribute)) : Nat :=
  (attributes.reverse.dropWhile fun e => e.2.default.isSome).length

/-- The text of the number of arguments that may be given. -/
def countText (required total : Nat) : String :=
  if required = total then toString required else toString required ++ " - " ++ toString total

/-- The value of an attribute: the argument at its place, or else its default value. -/
def argumentOr (arg : Option Value) (a : Attribute) : Value := arg.getD (a.default.getD .undef)

/-- A value that is not an instance of the type that is expected of it. -/
def mistyped (s : Store) (function : String) (index : Nat) (t : Ty) (v : Value) : TypeError :=
  .withText (s.render? t) fun expected =>
    .withText (s.render? (s.typeOf v)) (.illegalArgumentType function index expected)

/-- The attributes from the one at `index` on, each with its value, which has to be an instance of
the type of the attribute. -/
def fillFrom (s : Store) (function : String) (index : Nat) :
    List (String × Attribute) → List Value → Except TypeError (List (String × Value))
  | [], _ => .ok []
  | (k, a) :: as, args => do
    let v := argumentOr args.head? a
    if s.isInstance a.type v then
      return (k, v) :: (← fillFrom s function (index + 1) as args.tail)
    else
      throw (s.mistyped function index a.type v)

/-- The attributes of a new object of type `o` made from arguments. -/
def fill (s : Store) (o : ObjectId) (args : List Value) :
    Except TypeError (List (String × Value)) :=
  let function := s.label o ++ ".new"
  let attributes := (s.allAttributes o).entries
  let required := requiredCount attributes
  if args.length < required ∨ attributes.length < args.length then
    .error (.illegalArgumentCount function (countText required attributes.length) args.length)
  else s.fillFrom function 0 attributes args

end TypeLattice.Store
