import RSearch.Lib.Float64

/-!
# JSON values

The tree of a parsed JSON text: integers keep their sign and size, every other number is a double,
and an object is the list of its members in the order of their keys.
-/

namespace Json

/-- A number as it was read: a literal without a fraction that fits in 64 bits keeps its integer
value, every other one is a double. -/
inductive Number where
  | posInt (n : Nat)
  | negInt (n : ℤ)
  | float (f : F64)
  deriving DecidableEq

namespace Number

def asI64 : Number → Option ℤ
  | .posInt n => if n < 2 ^ 63 then some n else none
  | .negInt n => some n
  | .float _ => none

def asF64 : Number → F64
  | .posInt n => F64.ofInt n
  | .negInt n => F64.ofInt n
  | .float f => f

def isF64 : Number → Bool
  | .float _ => true
  | _ => false

end Number

inductive Value where
  | null
  | bool (b : Bool)
  | number (n : Number)
  | string (s : String)
  | array (items : List Value)
  | object (members : List (String × Value))

abbrev Members := List (String × Value)

def Members.get (ms : Members) (key : String) : Option Value := List.lookup key ms

/-- The members with the value under a key replaced, or with the key put in its place. -/
def Members.insert (key : String) (value : Value) : Members → Members
  | [] => [(key, value)]
  | (k, v) :: ms =>
    if k = key then (k, value) :: ms
    else if key < k then (key, value) :: (k, v) :: ms
    else (k, v) :: Members.insert key value ms

theorem Members.get_cons (key : String) (value : Value) (ms : Members) (key' : String) :
    Members.get ((key, value) :: ms) key' = if key' = key then some value else ms.get key' := by
  rw [Members.get, List.lookup_cons]
  by_cases h : key' = key
  · simp [h]
  · rw [beq_eq_false_iff_ne.mpr h, if_neg h, Members.get]

theorem isSome_lookup_iff {β : Type} (l : List (String × β)) (key : String) :
    (l.lookup key).isSome ↔ key ∈ l.map Prod.fst := by
  induction l with
  | nil => simp
  | cons member l ih =>
    rw [List.lookup_cons, List.map_cons, List.mem_cons, ← ih]
    by_cases h : key = member.1
    · simp [h]
    · rw [beq_eq_false_iff_ne.mpr h]
      simp [h]

theorem Members.get_insert (key : String) (value : Value) (ms : Members) (key' : String) :
    (ms.insert key value).get key' = if key' = key then some value else ms.get key' := by
  induction ms with
  | nil => rw [Members.insert, Members.get_cons]
  | cons member ms ih =>
    obtain ⟨k, v⟩ := member
    unfold Members.insert
    by_cases hk : k = key
    · rw [if_pos hk, Members.get_cons, Members.get_cons, hk]
      split_ifs <;> rfl
    · split_ifs with hlt h h
      · rw [Members.get_cons, if_pos h]
      · rw [Members.get_cons, if_neg h]
      · rw [Members.get_cons, if_neg (fun h' => hk (h'.symm.trans h)), ih, if_pos h]
      · rw [Members.get_cons, Members.get_cons, ih, if_neg h]

namespace Value

def get : Value → String → Option Value
  | .object ms, key => Members.get ms key
  | _, _ => none

def asStr : Value → Option String
  | .string s => some s
  | _ => none

def asBool : Value → Option Bool
  | .bool b => some b
  | _ => none

def asObject : Value → Option Members
  | .object ms => some ms
  | _ => none

def isObject : Value → Bool
  | .object _ => true
  | _ => false

def isNull : Value → Bool
  | .null => true
  | _ => false

mutual

def depth : Value → Nat
  | .array items => listDepth items + 1
  | .object ms => membersDepth ms + 1
  | _ => 0

def listDepth : List Value → Nat
  | [] => 0
  | v :: vs => max (depth v) (listDepth vs)

def membersDepth : List (String × Value) → Nat
  | [] => 0
  | (_, v) :: ms => max (depth v) (membersDepth ms)

end

end Value

end Json
