import OnePass.Typing

/-!
# Scopes

Variables are found through a chain of scopes, from the innermost outwards, so that an
inner declaration hides outer ones of its name. The global scope is always there, and
there is nothing to close when it is the innermost one. Functions live in a table of
their own, so a variable and a function may share a name.
-/

namespace OnePass

/-- How long a variable lives. -/
inductive Storage where
  | static
  | local
  | argument
  | global
  deriving DecidableEq, Repr

/-- Which of the counters of a scope counts the variables of a storage. -/
def Storage.counter : Storage → Fin 4
  | .static => 0
  | .local => 1
  | .argument => 2
  | .global => 3

/-- One word, or an array of a length that is known unless it was passed in. -/
inductive Shape where
  | scalar
  | array (length : Option UInt32)
  deriving DecidableEq, Repr

/-- Where the value of a variable is kept. -/
inductive Handle where
  | field (index : UInt32)
  | local (index : UInt32)
  | argument (index : UInt32)
  deriving DecidableEq, Repr

/-- A declared variable. -/
structure Symbol where
  /-- the type of its words -/
  type : WordType
  /-- how long it lives -/
  storage : Storage
  /-- how many variables of its storage were declared in its scope before it -/
  index : UInt32
  /-- one word or an array -/
  shape : Shape
  /-- where it is kept -/
  handle : Handle
  deriving DecidableEq, Repr

/-- Whether a variable is an array. -/
def Symbol.isArray (s : Symbol) : Bool :=
  match s.shape with
  | .scalar => false
  | .array _ => true

/-- The variables of one scope. -/
structure Scope where
  /-- names and variables, the last declared first -/
  symbols : List (String × Symbol)
  /-- how many variables of each storage were declared -/
  counters : Vector UInt32 4
  deriving DecidableEq, Repr

namespace Scope

/-- A scope without variables. -/
def empty : Scope := ⟨[], .replicate 4 0⟩

/-- The variable of a name. -/
def find? (s : Scope) (name : String) : Option Symbol := s.symbols.lookup name

/-- How many variables of a storage there are. -/
def count (s : Scope) (storage : Storage) : UInt32 := s.counters[storage.counter]

/-- A scope with one more variable, which is counted. -/
def insert (s : Scope) (name : String) (v : Symbol) : Scope where
  symbols := (name, v) :: s.symbols
  counters := s.counters.set v.storage.counter (s.count v.storage + 1)

end Scope

/-- The scopes that are open, the global one apart and at the bottom. -/
structure Scopes where
  /-- the scopes inside the global one, the innermost first -/
  inner : List Scope
  /-- the global scope -/
  global : Scope
  deriving DecidableEq, Repr

namespace Scopes

/-- Only the global scope, without variables. -/
def new : Scopes := ⟨[], .empty⟩

/-- How many scopes are open inside the global one. -/
def depth (s : Scopes) : Nat := s.inner.length

/-- Whether the global scope is the innermost one. -/
def isGlobal (s : Scopes) : Bool := s.inner.isEmpty

/-- Opens a scope. -/
def push (s : Scopes) : Scopes := { s with inner := .empty :: s.inner }

/-- Closes the innermost scope, if it is not the global one. -/
def pop (s : Scopes) : Scopes := { s with inner := s.inner.tail }

/-- The innermost scope. -/
def current (s : Scopes) : Scope := s.inner.headD s.global

/-- The same scopes with another innermost one. -/
def withCurrent (s : Scopes) (c : Scope) : Scopes :=
  match s.inner with
  | [] => { s with global := c }
  | _ :: outer => { s with inner := c :: outer }

/-- How many variables of a storage the innermost scope has. -/
def count (s : Scopes) (storage : Storage) : UInt32 := s.current.count storage

/-- The variable that a name stands for: that of the innermost scope that has one. -/
def lookup (s : Scopes) (name : String) : Option Symbol :=
  (s.inner ++ [s.global]).findSome? fun scope => scope.find? name

/-- Declares a variable in the innermost scope, unless that has one of the name. -/
def define (s : Scopes) (name : Name) (type : WordType) (storage : Storage) (shape : Shape)
    (handle : Handle) : Except (Located SemanticError) (Symbol × Scopes) :=
  match s.current.find? name.value with
  | some _ => .error ⟨.redefinition name.value, name.span⟩
  | none =>
    let v : Symbol := ⟨type, storage, s.count storage, shape, handle⟩
    .ok (v, s.withCurrent (s.current.insert name.value v))

/-- The variable that a name stands for, which must exist. -/
def resolve (s : Scopes) (name : Name) : Except (Located SemanticError) Symbol :=
  match s.lookup name.value with
  | some v => .ok v
  | none => .error ⟨.undeclared name.value, name.span⟩

end Scopes

/-- The functions that are always there. -/
inductive Intrinsic where
  | print
  | put
  deriving DecidableEq, Repr

/-- What a call of a function does. -/
inductive FunctionBody where
  /-- it becomes instructions of its own -/
  | intrinsic (i : Intrinsic)
  /-- it runs a routine -/
  | routine (index : UInt32)
  deriving DecidableEq, Repr

/-- What is known of a function. -/
structure FunctionSymbol where
  /-- what its argument slots hold -/
  params : List Slot
  /-- the type it returns, if it does -/
  returns : Option WordType
  /-- what a call does -/
  body : FunctionBody
  deriving DecidableEq, Repr

/-- All functions by name. -/
structure Functions where
  /-- names and functions, the last defined first -/
  entries : List (String × FunctionSymbol)
  deriving DecidableEq, Repr

namespace Functions

/-- The functions of a program without any of its own. -/
def new : Functions :=
  ⟨[("print", ⟨[], none, .intrinsic .print⟩), ("put", ⟨[], none, .intrinsic .put⟩)]⟩

/-- The function of a name. -/
def lookup (f : Functions) (name : String) : Option FunctionSymbol := f.entries.lookup name

/-- Defines a function, unless there is one of the name. -/
def define (f : Functions) (name : Name) (s : FunctionSymbol) :
    Except (Located SemanticError) Functions :=
  match f.lookup name.value with
  | some _ => .error ⟨.functionRedefinition name.value, name.span⟩
  | none => .ok ⟨(name.value, s) :: f.entries⟩

/-- The function of a name, which must exist. -/
def resolve (f : Functions) (name : Name) : Except (Located SemanticError) FunctionSymbol :=
  match f.lookup name.value with
  | some s => .ok s
  | none => .error ⟨.functionUndeclared name.value, name.span⟩

end Functions

end OnePass
