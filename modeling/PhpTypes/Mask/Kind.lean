/-!
# Primitive kinds of values

Eight kinds of run-time values need no declaration of their own. A set of kinds is kept as a
word of eight bits, one for each kind.
-/

namespace PhpTypes

/-- The kinds of values that need no entry in a registry. -/
inductive Kind where
  | integer
  | float
  | string
  | boolean
  /-- An array whose elements are unknown. -/
  | array
  | callable
  /-- An object whose class is unknown. -/
  | object
  | null
  deriving DecidableEq, Repr

namespace Kind

/-- Every kind, in the order of rendering; `null` is last. -/
def all : List Kind :=
  [integer, float, string, boolean, array, callable, object, null]

/-- No kind is missing from the list of all. -/
theorem mem_all (k : Kind) : k ∈ all := by
  cases k <;> decide

/-- The number of the bit that stands for the kind. -/
def index : Kind → Nat
  | integer => 0
  | float => 1
  | string => 2
  | boolean => 3
  | array => 4
  | callable => 5
  | object => 6
  | null => 7

/-- The spelling of the kind in an annotation. -/
def keyword : Kind → String
  | integer => "int"
  | float => "float"
  | string => "string"
  | boolean => "bool"
  | array => "array"
  | callable => "callable"
  | object => "object"
  | null => "null"

/-- The name of the kind in the raw form of a mask. -/
def label : Kind → String
  | integer => "Integer"
  | float => "Float"
  | string => "String"
  | boolean => "Boolean"
  | array => "Array"
  | callable => "Callable"
  | object => "Object"
  | null => "Null"

/-- The kind spelled `text` in an annotation, in exactly this case. -/
def ofKeyword? (text : String) : Option Kind :=
  all.find? fun k => k.keyword == text

end Kind

/-- A set of primitive kinds; bit `k.index` tells whether `k` belongs to it. -/
structure KindSet where
  bits : BitVec 8
  deriving DecidableEq, Hashable

namespace KindSet

/-- Whether the kind belongs to the set. -/
def contains (s : KindSet) (k : Kind) : Bool :=
  s.bits.getLsbD k.index

instance : Membership Kind KindSet where
  mem s k := s.contains k = true

instance (k : Kind) (s : KindSet) : Decidable (k ∈ s) :=
  inferInstanceAs (Decidable (s.contains k = true))

instance : EmptyCollection KindSet where
  emptyCollection := ⟨0#8⟩

/-- The set that holds one kind. -/
def single (k : Kind) : KindSet :=
  ⟨BitVec.twoPow 8 k.index⟩

instance : Union KindSet where
  union a b := ⟨a.bits ||| b.bits⟩

/-- The kinds of the set in the order of rendering. -/
def toList (s : KindSet) : List Kind :=
  Kind.all.filter s.contains

@[simp] theorem not_mem_empty (k : Kind) : k ∉ (∅ : KindSet) := by
  cases k <;> decide

@[simp] theorem mem_single {k l : Kind} : k ∈ single l ↔ k = l := by
  cases k <;> cases l <;> decide

@[simp] theorem mem_union {k : Kind} {a b : KindSet} : k ∈ a ∪ b ↔ k ∈ a ∨ k ∈ b := by
  show (a.bits ||| b.bits).getLsbD k.index = true ↔ _
  rw [BitVec.getLsbD_or, Bool.or_eq_true]
  rfl

@[simp] theorem mem_toList {k : Kind} {s : KindSet} : k ∈ s.toList ↔ k ∈ s :=
  List.mem_filter.trans (and_iff_right (Kind.mem_all k))

/-- Two sets with the same kinds are equal. -/
theorem ext {a b : KindSet} (h : ∀ k, k ∈ a ↔ k ∈ b) : a = b := by
  have bit (k : Kind) : a.bits.getLsbD k.index = b.bits.getLsbD k.index :=
    Bool.eq_iff_iff.mpr (h k)
  have : a.bits = b.bits := BitVec.eq_of_getLsbD_eq fun i hi => by
    match i, hi with
    | 0, _ => exact bit .integer
    | 1, _ => exact bit .float
    | 2, _ => exact bit .string
    | 3, _ => exact bit .boolean
    | 4, _ => exact bit .array
    | 5, _ => exact bit .callable
    | 6, _ => exact bit .object
    | 7, _ => exact bit .null
  cases a
  cases b
  simpa using this

end KindSet

end PhpTypes
