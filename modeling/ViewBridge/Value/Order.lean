import ViewBridge.Value.Basic
import ViewBridge.Number.Binary
/-!
# Equality and order of template values

Numbers are equal when they are the same real number, whatever their form, and a truth value counts as one
or zero; texts are equal without regard to safety; collections are compared item by item. The order puts
kinds first and values second, doubles in their full order, and sorts the keys of maps.

Results:
* `cmp_self`: every value is in its own place of the order.
* `get?_insert_self`: what is put into a map is found there.
* `get?_insert_of_ne`: putting a member into a map leaves the others alone.
-/
namespace ViewBridge

/-- A number of a template: exact, or a double. -/
inductive Numeric where
  | int (n : Int)
  | float (x : Float)

namespace Numeric

/-- The double nearest to a number. -/
def toFloat : Numeric → Float
  | .int n => Binary.ofInt n
  | .float x => x

/-- Whether an integer and a double are the same number. -/
def sameIntFloat (n : Int) (x : Float) : Bool :=
  match Binary.ofFloat x with
  | .finite neg m q => Binary.cmpInt neg m q n == .eq
  | _ => false

/-- Whether two numbers are the same. -/
def same : Numeric → Numeric → Bool
  | .int a, .int b => a == b
  | .int a, .float b => sameIntFloat a b
  | .float a, .int b => sameIntFloat b a
  | .float a, .float b => a == b

/-- The order of an integer and a double; a zero comes after the negative zero. -/
def cmpIntFloat (n : Int) (x : Float) : Ordering :=
  let full := compare (Binary.orderKey (Binary.ofInt n)) (Binary.orderKey x)
  match Binary.ofFloat x with
  | .finite neg m q => (Binary.cmpInt neg m q n).swap.then full
  | _ => full

/-- The order of numbers. -/
def cmp : Numeric → Numeric → Ordering
  | .int a, .int b => compare a b
  | .int a, .float b => cmpIntFloat a b
  | .float a, .int b => (cmpIntFloat b a).swap
  | .float a, .float b => compare (Binary.orderKey a) (Binary.orderKey b)

end Numeric

namespace Value

/-- What a value counts as in arithmetic; truth values are one and zero. -/
def numeric? : Value → Option Numeric
  | .bool b => some (.int (ofBit b))
  | .int n => some (.int n)
  | .float x => some (.float x)
  | _ => Option.none

mutual

/-- The order of values. -/
def cmp : Value → Value → Ordering
  | .bool a, .bool b => compare (ofBit a) (ofBit b)
  | .int a, .int b => Numeric.cmp (.int a) (.int b)
  | .int a, .float b => Numeric.cmp (.int a) (.float b)
  | .float a, .int b => Numeric.cmp (.float a) (.int b)
  | .float a, .float b => Numeric.cmp (.float a) (.float b)
  | .text _ a, .text _ b => compareOfLessAndEq a b
  | .seq a, .seq b => cmpItems a b
  | .series a, .series b => cmpItems a b
  | .map a, .map b => cmpMembers a b
  | .callable a, .callable b => compareOfLessAndEq a b
  | a, b => compare a.kind.rank b.kind.rank

/-- The order of items: the first difference decides, then the length. -/
def cmpItems : List Value → List Value → Ordering
  | [], [] => .eq
  | [], _ :: _ => .lt
  | _ :: _, [] => .gt
  | a :: as, b :: bs => (cmp a b).then (cmpItems as bs)

/-- The order of members: keys before values. -/
def cmpMembers : List (Value × Value) → List (Value × Value) → Ordering
  | [], [] => .eq
  | [], _ :: _ => .lt
  | _ :: _, [] => .gt
  | (k, v) :: as, (k', v') :: bs => ((cmp k k').then (cmp v v')).then (cmpMembers as bs)

end

/-- The member of a map with a key. -/
def get? (key : Value) : List (Value × Value) → Option Value
  | [] => Option.none
  | (k, v) :: ms => if cmp k key = .eq then some v else get? key ms

/-- The members with one of them put in its place; a key that is there already keeps its form. -/
def insert (key v : Value) : List (Value × Value) → List (Value × Value)
  | [] => [(key, v)]
  | (k, w) :: ms =>
    match cmp k key with
    | .lt => (k, w) :: insert key v ms
    | .eq => (k, v) :: ms
    | .gt => (key, v) :: (k, w) :: ms

/-- The members that pairs make; of a key given twice the last value counts. -/
def sortMembers (pairs : List (Value × Value)) : List (Value × Value) :=
  pairs.foldl (fun ms p => insert p.1 p.2 ms) []

/-- A map of named members. -/
def ofNamed (pairs : List (Chars × Value)) : Value :=
  .map (sortMembers (pairs.map fun p => (ofChars p.1, p.2)))

mutual

/-- Whether two values are equal. -/
def same : Value → Value → Bool
  | .undefined, .undefined => true
  | .none, .none => true
  | .text _ a, .text _ b => a == b
  | .seq a, .seq b => sameItems a b
  | .seq a, .series b => sameItems a b
  | .series a, .seq b => sameItems a b
  | .series a, .series b => sameItems a b
  | .map a, .map b => a.length == b.length && sameMembers a b
  | .callable a, .callable b => a == b
  | a, b =>
    match a.numeric?, b.numeric? with
    | some x, some y => x.same y
    | _, _ => false

/-- Whether items are equal one by one. -/
def sameItems : List Value → List Value → Bool
  | [], [] => true
  | a :: as, b :: bs => same a b && sameItems as bs
  | _, _ => false

/-- Whether every member has an equal one with the same key among others. -/
def sameMembers : List (Value × Value) → List (Value × Value) → Bool
  | [], _ => true
  | (k, v) :: ms, others =>
    (match get? k others with
      | some w => same v w
      | Option.none => false) && sameMembers ms others

end

theorem compareOfLessAndEq_self (s : Chars) : compareOfLessAndEq s s = .eq := by
  rw [compareOfLessAndEq, if_neg (List.lt_irrefl s), if_pos rfl]

/-- A value against itself: collections are compared item by item, all else is in its own place. -/
theorem cmp_self_eq (v : Value) :
    cmp v v = match v with
      | .seq items | .series items => cmpItems items items
      | .map members => cmpMembers members members
      | _ => .eq := by
  cases v with
  | text _ s | callable s => exact compareOfLessAndEq_self s
  | bool _ | int _ | float _ => exact Std.compare_self
  | _ => rfl

mutual

/-- A value is neither before nor after itself, whatever doubles it holds. -/
theorem cmp_self : ∀ v : Value, cmp v v = .eq
  | .undefined | .none | .bool _ | .int _ | .float _ | .text .. | .callable _ => cmp_self_eq _
  | .seq items => (cmp_self_eq _).trans (cmpItems_self items)
  | .series items => (cmp_self_eq _).trans (cmpItems_self items)
  | .map members => (cmp_self_eq _).trans (cmpMembers_self members)

theorem cmpItems_self : ∀ items : List Value, cmpItems items items = .eq
  | [] => by simp [cmpItems]
  | v :: vs => by simp [cmpItems, cmp_self v, cmpItems_self vs]

theorem cmpMembers_self : ∀ members : List (Value × Value), cmpMembers members members = .eq
  | [] => by simp [cmpMembers]
  | (k, v) :: ms => by simp [cmpMembers, cmp_self k, cmp_self v, cmpMembers_self ms]

end

theorem cmp_ofChars (s t : Chars) : cmp (ofChars s) (ofChars t) = compareOfLessAndEq s t := rfl

theorem get?_insert_self (key v : Value) (ms : List (Value × Value)) :
    get? key (insert key v ms) = some v := by
  have h := cmp_self key
  induction ms with
  | nil => simp [insert, get?, h]
  | cons m ms ih =>
    obtain ⟨k, w⟩ := m
    simp only [insert]
    split
    · rename_i hk; simp [get?, hk, ih]
    · rename_i hk; simp [get?, hk]
    · simp [get?, h]

theorem cmp_ofChars_eq {k : Value} {s : Chars} (h : cmp k (ofChars s) = .eq) :
    ∃ safe, k = .text safe s := by
  cases k with
  | text safe t =>
    rw [show cmp (.text safe t) (ofChars s) = compareOfLessAndEq t s from rfl, compareOfLessAndEq] at h
    split at h
    · cases h
    · split at h
      · rename_i ht; exact ⟨safe, by rw [ht]⟩
      · cases h
  | _ => exact absurd h Ordering.noConfusion

theorem get?_insert_of_ne {s t : Chars} (h : t ≠ s) (v : Value) (ms : List (Value × Value)) :
    get? (ofChars t) (insert (ofChars s) v ms) = get? (ofChars t) ms := by
  have other {k : Value} (hk : cmp k (ofChars s) = .eq) : cmp k (ofChars t) ≠ .eq := by
    obtain ⟨safe, rfl⟩ := cmp_ofChars_eq hk
    intro ht
    obtain ⟨safe', hst⟩ := cmp_ofChars_eq ht
    simp only [text.injEq] at hst
    exact h hst.2.symm
  have self : cmp (ofChars s) (ofChars t) ≠ .eq :=
    other (by rw [cmp_ofChars]; exact compareOfLessAndEq_self s)
  induction ms with
  | nil => simp [insert, get?, self]
  | cons m ms ih =>
    obtain ⟨k, w⟩ := m
    simp only [insert]
    split
    · simp only [get?, ih]
    · rename_i hk; simp [get?, other hk]
    · simp only [get?, self, if_false]

end Value
end ViewBridge
