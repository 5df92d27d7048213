import ArenaScheme.Machine

/-! What a primitive procedure is. Its arguments are references that a collection would outdate, so
a primitive allocates at most once. -/

namespace ArenaScheme

open Eval

structure Primitive where
  name : String
  arity : Nat
  run : Calls → List Ref → Eval Step

namespace Primitive

private def wrongCount (arity : Nat) (args : List Ref) : Eval Step :=
  fail (.wrongArgumentCount arity args.length)

def nullary (name : String) (f : Eval Ref) : Primitive where
  name
  arity := 0
  run _ args := match args with
    | [] => return .done (← f)
    | args => wrongCount 0 args

def unary (name : String) (f : Ref → Eval Ref) : Primitive where
  name
  arity := 1
  run _ args := match args with
    | [a] => return .done (← f a)
    | args => wrongCount 1 args

def binary (name : String) (f : Ref → Ref → Eval Ref) : Primitive where
  name
  arity := 2
  run _ args := match args with
    | [a, b] => return .done (← f a b)
    | args => wrongCount 2 args

def ternary (name : String) (f : Ref → Ref → Ref → Eval Ref) : Primitive where
  name
  arity := 3
  run _ args := match args with
    | [a, b, c] => return .done (← f a b c)
    | args => wrongCount 3 args

/-- A primitive that asks what kind of record its argument is. -/
def predicate (name : String) (holds : Object → Bool) : Primitive :=
  unary name fun value => return Heap.boolean (holds (← object value))

end Primitive

end ArenaScheme
