import MemoryCompiler.Decimal.Numeral
import MemoryCompiler.Decimal.Shortest

/-!
# Documents

Configuration files, override tables and template lists arrive as untyped values. A record keeps
its fields in *property order*: names that are array indices come first in ascending order, the
others in the order written, and a repeated name keeps the place of its first writing and the
value of its last.
-/

namespace MemoryCompiler

/-- An untyped value. `undefined` is the value of a field that was named but not given. -/
inductive Document where
  | undefined
  | null
  | boolean (b : Bool)
  | number (x : Float)
  | integer (n : Int)
  | text (s : String)
  | list (items : List Document)
  | record (fields : List (String × Document))
deriving Inhabited, Repr

namespace Document

/-! ## Property order -/

/-- The largest array index, `2 ^ 32 - 2`. -/
def greatestIndex : Nat := 4294967294

/-- The array index that a field name spells: digits without a leading zero. -/
def arrayIndex? (name : String) : Option Nat :=
  match name.toList with
  | [] => none
  | ['0'] => some 0
  | '0' :: _ => none
  | cs => (Decimal.wholeNumeral? 10 cs).filter (· ≤ greatestIndex)

/-- Sets a field: in place if the name is there, else at the end. -/
def setField {α : Type} (name : String) (value : α) : List (String × α) → List (String × α)
  | [] => [(name, value)]
  | (n, v) :: rest => if n = name then (name, value) :: rest else (n, v) :: setField name value rest

/-- Inserts an indexed field before the first one with a larger index. -/
def insertIndexed (i : Nat) (field : String × Document) :
    List (Nat × String × Document) → List (Nat × String × Document)
  | [] => [(i, field)]
  | (j, f) :: rest => if i < j then (i, field) :: (j, f) :: rest else (j, f) :: insertIndexed i field rest

/-- Indexed fields in ascending order. -/
def indexedFields (fields : List (String × Document)) : List (String × Document) :=
  let tagged := fields.filterMap fun f => (arrayIndex? f.1).map fun i => (i, f)
  (tagged.foldl (fun acc t => insertIndexed t.1 t.2 acc) []).map Prod.snd

/-- The fields in property order, each name once. -/
def propertyOrder (fields : List (String × Document)) : List (String × Document) :=
  let once := fields.foldl (fun acc f => setField f.1 f.2 acc) []
  indexedFields once ++ once.filter fun f => (arrayIndex? f.1).isNone

/-- The record of some fields, put in property order. -/
def ofFields (fields : List (String × Document)) : Document := record (propertyOrder fields)

/-! ## Access -/

def fields? : Document → Option (List (String × Document))
  | record fs => some fs
  | _ => none

def isRecord (d : Document) : Bool := d.fields?.isSome

/-- A field of a list of fields; a missing one reads as `undefined`. -/
def fieldIn (fields : List (String × Document)) (name : String) : Document :=
  (fields.lookup name).getD undefined

/-- A field of a value; `undefined` when the value is no record or lacks the field. -/
def field (d : Document) (name : String) : Document :=
  match d with
  | record fs => fieldIn fs name
  | _ => undefined

def isUndefined : Document → Bool
  | undefined => true
  | _ => false

/-- The value is `undefined` or `null`. -/
def isMissing : Document → Bool
  | undefined | null => true
  | _ => false

/-- Whether a condition takes the value for true. -/
def countsAsTrue : Document → Bool
  | undefined | null => false
  | boolean b => b
  | number x => !(x == 0) && !x.isNaN
  | integer n => n != 0
  | text s => s != ""
  | list _ | record _ => true

/-- The finite number that a value is or spells. -/
def finite? : Document → Option Float
  | number x => if x.isFinite then some x else none
  | text s =>
    if Text.trimChars s.toList = [] then none
    else (Decimal.number? s).filter Float.isFinite
  | _ => none

def text? : Document → Option String
  | text s => some s
  | _ => none

def items? : Document → Option (List Document)
  | list xs => some xs
  | _ => none

def ofNat (n : Nat) : Document := number (Float.ofNat n)

/-- Whether an arbitrary-precision integer occurs anywhere in the value. -/
def hasInteger : Document → Bool
  | integer _ => true
  | list xs => xs.attach.any fun x => hasInteger x.1
  | record fs => fs.attach.any fun f => hasInteger f.1.2
  | _ => false
termination_by d => sizeOf d
decreasing_by
  · have := List.sizeOf_lt_of_mem x.2
    simp only [list.sizeOf_spec]; omega
  · have := List.sizeOf_lt_of_mem f.2
    have h : sizeOf f.1 = 1 + sizeOf f.1.1 + sizeOf f.1.2 := by rcases f with ⟨⟨a, b⟩, _⟩; rfl
    simp only [record.sizeOf_spec]; omega

/-! ## Laws of records -/

theorem lookup_setField {α : Type} (name : String) (value : α) (fs : List (String × α)) :
    (setField name value fs).lookup name = some value := by
  induction fs with
  | nil => simp [setField]
  | cons f rest ih =>
    rcases f with ⟨n, v⟩
    by_cases h : n = name
    · simp [setField, h]
    · have h' : (name == n) = false := by simpa using fun e => h e.symm
      simp [setField, h, List.lookup_cons, h', ih]

theorem lookup_setField_of_ne {α : Type} {name other : String} (value : α)
    (fs : List (String × α)) (h : other ≠ name) :
    (setField name value fs).lookup other = fs.lookup other := by
  induction fs with
  | nil => simp [setField, h]
  | cons f rest ih =>
    rcases f with ⟨n, v⟩
    by_cases hn : n = name
    · have h' : (other == name) = false := by simpa using h
      simp [setField, hn, List.lookup_cons, h']
    · simp [setField, hn, List.lookup_cons, ih]

theorem lookup_of_mem {α : Type} {fs : List (String × α)} (hdistinct : (fs.map Prod.fst).Nodup)
    {f : String × α} (hf : f ∈ fs) : fs.lookup f.1 = some f.2 := by
  induction fs with
  | nil => exact absurd hf List.not_mem_nil
  | cons g fs ih =>
    rcases g with ⟨n, v⟩
    obtain ⟨hnot, hrest⟩ := List.nodup_cons.1 hdistinct
    rcases List.mem_cons.1 hf with rfl | hf
    · rw [List.lookup_cons_self]
    · have hne : f.1 ≠ n := fun heq => hnot (List.mem_map.2 ⟨f, hf, heq⟩)
      rw [List.lookup_cons, beq_false_of_ne hne]
      exact ih hrest hf

end Document

end MemoryCompiler
