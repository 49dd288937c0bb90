import Lox.Binding.Resolution
import Lox.Number.Text
import Lox.Store.Chain

namespace Lox

namespace Store

/-- The nearest definition of a method: in the class itself, or else in the first ancestor that has
    one. -/
def findMethod? (s : Store) (classId : Nat) (name : String) : Option Closure :=
  match s.classes[classId]? with
  | none => none
  | some c =>
    c.methods.find? name <|> c.ancestors.findSome? fun ancestor =>
      s.classes[ancestor]?.bind fun a => a.methods.find? name

/-- A copy of the method whose `this` is the instance, bound in a frame of its own. -/
def bind (s : Store) (method : Closure) (instanceId : Nat) : Closure × Store :=
  let (frame, s) := s.newFrame .this (some ⟨.receiver method.code instanceId, method.chain⟩)
  let chain := frame :: method.chain
  ({ method with chain }, s.define chain "this" (.instance instanceId))

/-- Binds the method and makes a function of it. -/
def boundMethod (s : Store) (method : Closure) (instanceId : Nat) : Value × Store :=
  let (closure, s) := s.bind method instanceId
  let (id, s) := s.newFunction closure
  (.function id, s)

/-- A property of an instance: a field with its value, or a method that is still to be bound. -/
inductive Property where
  | field (value : Value)
  | method (definition : Closure)

/-- The property of an instance. A field comes before a method of the same name. -/
def property? (s : Store) (instanceId : Nat) (name : String) : Option Property :=
  s.instances[instanceId]?.bind fun i =>
    (i.fields.find? name).map .field <|> (s.findMethod? i.classId name).map .method

/-- Gives a field of an instance a value. Any name will do, also that of a method. -/
def setField (s : Store) (instanceId : Nat) (name : String) (value : Value) : Store :=
  let set := fun i : InstanceRecord => { i with fields := i.fields.insert name value }
  { s with instances := s.instances.modify instanceId set }

/-- The method of a class that runs on every new instance, its own or an inherited one. -/
def initializer? (s : Store) (classId : Nat) : Option Closure :=
  s.findMethod? classId initializerName

/-- How many arguments a value takes when it is called, if it can be called. A class takes those of
    its initializer. -/
def arity? (s : Store) : Value → Option Nat
  | .native f => some f.arity
  | .function id => s.functions[id]?.map Closure.arity
  | .class id => some ((s.initializer? id).elim 0 Closure.arity)
  | _ => none

/-- The name of a class; there is none that is not in the store. -/
def className (s : Store) (classId : Nat) : String :=
  s.classes[classId]?.elim "" ClassRecord.name

end Store

/-- Numbers as values: whole numbers show all their digits. -/
def Value.numberStyle : Number.Style :=
  ⟨none, "", true⟩

/-- The text of a value in the pieces in which it is written out. -/
def Store.pieces (s : Store) : Value → List String
  | .nil => ["nil"]
  | .bool true => ["true"]
  | .bool false => ["false"]
  | .number x => [Value.numberStyle.write x]
  | .string text => [text]
  | .native f => ["<native fn ", f.name, ">"]
  | .function id =>
    match s.functions[id]?.bind Closure.name with
    | some name => ["<fn ", name, ">"]
    | none => ["<fn>"]
  | .class id => [s.className id]
  | .instance id => [s.instances[id]?.elim "" (s.className ·.classId), " instance"]

/-- The text of a value. -/
def Store.text (s : Store) (value : Value) : String :=
  String.join (s.pieces value)

end Lox
