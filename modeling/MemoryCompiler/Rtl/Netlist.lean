import MemoryCompiler.Ecc.Layout
import MemoryCompiler.Config

/-!
# Netlists

What a generated hardware module consists of: parameters, ports, nets, assignments and instances
of other modules. A declared width may be written against a parameter. Expressions are texts;
`identifiers` lists the names that occur in one.
-/

namespace MemoryCompiler.Rtl

/-- The direction of a port. In a generated module it is never `inout`; a module that is made by hand can
also have ports of both directions. -/
inductive Direction where
  | input
  | output
  | inout
deriving DecidableEq, Repr, Inhabited

def Direction.text : Direction → String
  | input => "input"
  | output => "output"
  | inout => "inout"

/-- A port of a module. -/
structure Port where
  name : String
  direction : Direction
  width : Nat
  /-- The parameter that the declared range is written against. -/
  widthParam : Option String
deriving DecidableEq, Repr, Inhabited

structure Net where
  name : String
  width : Nat
  /-- The parameter that the declared range is written against. -/
  widthParam : Option String
deriving DecidableEq, Repr, Inhabited

inductive ParamValue where
  | whole (n : Nat)
  | real (x : Float)
deriving DecidableEq, Repr, Inhabited

namespace ParamValue

/-- The value as a number. -/
def toFloat : ParamValue → Float
  | whole n => Float.ofNat n
  | real x => x

def text : ParamValue → String
  | whole n => Decimal.natText n
  | real x => Decimal.text x

/-- The quotient of two numbers, whole if the division leaves no rest. -/
def quotient (a b : Nat) : ParamValue :=
  if b ≠ 0 ∧ a % b = 0 then whole (a / b) else real (Float.ofNat a / Float.ofNat b)

theorem quotient_of_dvd {a b : Nat} (hb : b ≠ 0) (h : a % b = 0) : quotient a b = whole (a / b) := by
  simp [quotient, hb, h]

end ParamValue

/-- A parameter of a module with its value. -/
structure Param where
  name : String
  value : ParamValue
deriving DecidableEq, Repr, Inhabited

structure Assign where
  lhs : String
  rhs : String
deriving DecidableEq, Repr, Inhabited

/-- A parameter that an instance sets. -/
structure Setting where
  name : String
  expr : String
deriving DecidableEq, Repr, Inhabited

/-- A port that an instance connects. -/
structure Connection where
  port : String
  expr : String
deriving DecidableEq, Repr, Inhabited

/-- An instance of a module. -/
structure Instance where
  /-- The module it is an instance of. -/
  moduleName : String
  name : String
  params : List Setting
  connections : List Connection
deriving DecidableEq, Repr, Inhabited

/-- The part that a module plays in a design. -/
inductive Role where
  | top
  | core
  | powerWrapper
  | clockGate
  | eccEncoder
  | eccDecoder
deriving DecidableEq, Repr, Inhabited

namespace Role

def all : List Role := [top, core, powerWrapper, clockGate, eccEncoder, eccDecoder]

def name : Role → String
  | top => "top"
  | core => "core"
  | powerWrapper => "pg_wrapper"
  | clockGate => "clock_gate"
  | eccEncoder => "ecc_encoder"
  | eccDecoder => "ecc_decoder"

/-- What a module of this role is. -/
def title : Role → String
  | top => "SRAM macro top level"
  | core => "banked bit-cell array"
  | powerWrapper => "bank power-gating wrapper"
  | clockGate => "integrated clock gate"
  | eccEncoder => "SEC-DED check-bit encoder"
  | eccDecoder => "SEC-DED decoder and corrector"

end Role

/-- A hardware module. -/
structure Module where
  name : String
  role : Role
  params : List Param
  ports : List Port
  nets : List Net := []
  assigns : List Assign := []
  instances : List Instance := []
deriving DecidableEq, Repr, Inhabited

namespace Module

def port? (m : Module) (name : String) : Option Port := m.ports.find? fun p => p.name == name

def hasPort (m : Module) (name : String) : Bool := (m.port? name).isSome

end Module

/-- All modules that are generated for one configuration. -/
structure Design where
  config : Config
  baseName : String
  fingerprint : String
  /-- Width of an address. -/
  addrWidth : Nat
  /-- Words in one bank. -/
  bankDepth : ParamValue
  /-- Width of a stored word, check bits included. -/
  codeWidth : Nat
  ecc : Option Ecc.Layout
  modules : List Module
deriving Repr

def Design.module? (d : Design) (role : Role) : Option Module :=
  d.modules.find? fun m => m.role == role

/-! ## Names in an expression -/

/-- A letter or an underscore. -/
def startsIdentifier (c : Char) : Bool := c.isAlpha || c == '_'

/-- A letter, a digit or an underscore. -/
def inIdentifier (c : Char) : Bool := c.isAlphanum || c == '_'

/-- Collects the identifiers of an expression, `current` being the reversed start of one. -/
def collectIdentifiers (current : List Char) : List Char → List String
  | [] => if current = [] then [] else [String.ofList current.reverse]
  | c :: cs =>
    if current = [] then
      if startsIdentifier c then collectIdentifiers [c] cs else collectIdentifiers [] cs
    else if inIdentifier c then collectIdentifiers (c :: current) cs
    else String.ofList current.reverse :: collectIdentifiers [] cs

/-- The identifiers of an expression, from left to right. -/
def identifiers (expr : String) : List String := collectIdentifiers [] expr.toList

end MemoryCompiler.Rtl
