import ViewBridge.Helper.Argument
import ViewBridge.Text.Case
/-!
# Filters on collections

What filters do to the items of a collection. Texts are collections of their characters, maps of their keys,
and what is missing has no items.

Results:
* `joinFrom_nil`: nothing joined is nothing.
* `sortKeyed_perm`: sorting neither drops nor repeats an item.
* `batches_flatten`: cutting into batches loses no item.
-/
namespace ViewBridge.Template.Filter

/-! ## Walking -/

/-- What can be walked through one by one: characters, items, or keys; nothing for what is missing. -/
def walk? : Value → Option (List Value)
  | .undefined | .none => some []
  | .text _ s => some (s.map fun c => .ofChars [c])
  | .seq items | .series items => some items
  | .map members => some (members.map (·.1))
  | _ => none

/-- What can be walked through, or the failure to do so. -/
def walk (v : Value) : Except RenderError (List Value) :=
  match walk? v with
  | some items => .ok items
  | none => .error Value.invalid

/-- How many characters or items there are. -/
def length (v : Value) : Except RenderError Value :=
  match v with
  | .text _ s => .ok (.ofNat s.length)
  | .seq items | .series items => .ok (.ofNat items.length)
  | .map members => .ok (.ofNat members.length)
  | _ => .error Value.invalid

/-- The value from its end to its start. -/
def reverse (v : Value) : Except RenderError Value :=
  match v with
  | .undefined | .none => .ok v
  | .text _ s => .ok (.ofChars s.reverse)
  | .seq items | .series items => .ok (.series items.reverse)
  | .map members => .ok (.series (members.map (·.1)).reverse)
  | _ => .error Value.invalid

/-- The first character, item or key. -/
def first (v : Value) : Except RenderError Value :=
  match v with
  | .text .. | .seq _ | .series _ | .map _ => .ok (((walk? v).bind List.head?).getD .undefined)
  | _ => .error Value.invalid

/-- The last character or item. -/
def last (v : Value) : Except RenderError Value :=
  match v with
  | .text .. | .seq _ | .series _ => .ok (((walk? v).bind List.getLast?).getD .undefined)
  | _ => .error Value.invalid

/-- Texts joined; a separator is written only after something has been. -/
def joinFrom (separator : Chars) : (written : Bool) → List Value → Chars
  | _, [] => []
  | written, v :: vs =>
    let before := if written then separator else []
    before ++ v.print ++ joinFrom separator (written || !v.print.isEmpty) vs

theorem joinFrom_nil (separator : Chars) (written : Bool) : joinFrom separator written [] = [] := rfl

/-- The printed items, joined. -/
def join (v : Value) (separator : Option Chars) : Except RenderError Value :=
  (walk v).map fun items => .ofChars (joinFrom (separator.getD []) false items)

/-! ## Order -/

/-- Whether a value is not after another one: texts go without regard to the case of ASCII letters unless it
matters, all else as usual. -/
def sortBefore (caseMatters : Bool) (a b : Value) : Bool :=
  match caseMatters, a, b with
  | false, .text _ s, .text _ t => compareOfLessAndEq (Text.asciiLower s) (Text.asciiLower t) != .gt
  | _, a, b => Value.cmp a b != .gt

/-- Items in the order of their keys; those with equal keys keep theirs. -/
def sortKeyed {α : Type} (caseMatters : Bool) (keyed : List (Value × α)) : List α :=
  (keyed.mergeSort fun a b => sortBefore caseMatters a.1 b.1).map (·.2)

theorem sortKeyed_perm {α : Type} (caseMatters : Bool) (keyed : List (Value × α)) :
    (sortKeyed caseMatters keyed).Perm (keyed.map (·.2)) :=
  (List.mergeSort_perm keyed _).map _

/-- The attribute of a value at the end of a path of names and positions; there is none inside of what is
undefined. -/
def follow (path : Chars) (v : Value) : Except RenderError Value :=
  (Text.splitOn ['.'] path).foldlM
    (fun v part =>
      match v with
      | .undefined => .error { kind := .undefinedValue }
      | v =>
        match Text.readNat? 10 part with
        | some n => .ok (v.item (.ofNat n))
        | none => .ok (v.member part))
    v

/-- The items with what they are ordered by: themselves, or an attribute. -/
def keyedBy (path : Option Chars) (items : List Value) : Except RenderError (List (Value × Value)) :=
  match path with
  | none => .ok (items.map fun v => (v, v))
  | some path => items.mapM fun v => (follow path v).map fun key => (key, v)

/-- The greatest item, the last of several; of none it is undefined. -/
def greatest : List Value → Value
  | [] => .undefined
  | v :: vs => vs.foldl (fun best item => if Value.cmp item best = .lt then best else item) v

/-- The least item, the first of several; of none it is undefined. -/
def least : List Value → Value
  | [] => .undefined
  | v :: vs => vs.foldl (fun best item => if Value.cmp item best = .lt then item else best) v

/-- The items without those whose key has been there before. -/
def distinct (caseMatters : Bool) : (seen : List Value) → List (Value × Value) → List Value
  | _, [] => []
  | seen, (key, v) :: rest =>
    let key := match caseMatters, key with
      | false, .text _ s => .ofChars (Text.lower s)
      | _, key => key
    if seen.any fun k => Value.cmp k key == .eq then distinct caseMatters seen rest
    else v :: distinct caseMatters (key :: seen) rest

/-- Items that follow each other with equal keys, together with the key of the first of them. -/
def grouped (caseMatters : Bool) : List (Value × Value) → List (Value × List Value)
  | [] => []
  | (key, v) :: rest =>
    match grouped caseMatters rest with
    | (other, vs) :: groups =>
      if sortBefore caseMatters key other && sortBefore caseMatters other key then (key, v :: vs) :: groups
      else (key, [v]) :: (other, vs) :: groups
    | [] => [(key, [v])]

/-! ## Parts -/

/-- Items cut into batches of a size. -/
def batches (size : Nat) (items : List Value) : List (List Value) :=
  match items with
  | [] => []
  | v :: vs => (v :: vs.take (size - 1)) :: batches size (vs.drop (size - 1))
termination_by items.length
decreasing_by simp only [List.length_cons, List.length_drop]; omega

theorem batches_flatten (size : Nat) (items : List Value) : (batches size items).flatten = items := by
  fun_induction batches size items with
  | case1 => rfl
  | case2 v vs ih => simp [ih]

/-- Batches of a size, the last one filled up. -/
def batch (size : Nat) (filler : Option Value) (items : List Value) : List Value :=
  (batches size items).map fun b =>
    match filler with
    | some f => .seq (b ++ List.replicate (size - b.length) f)
    | none => .seq b

/-- Items dealt into so many parts, the first ones longer where they do not come out even, and the others
filled up. -/
def parts (count : Nat) (filler : Option Value) (items : List Value) : List Value :=
  let size := items.length / count
  let longer := items.length % count
  (List.range count).map fun i =>
    let part := (items.drop (i * size + min i longer)).take (size + if i < longer then 1 else 0)
    match filler with
    | some f => .seq (if i < longer then part else part ++ [f])
    | none => .seq part

/-- The sum of numbers; what is undefined is left out. -/
def sum (items : List Value) : Except RenderError Value :=
  items.foldlM
    (fun total v =>
      match v with
      | .undefined => .ok total
      | .int _ | .float _ => Value.add total v
      | _ => .error Value.invalid)
    (.int 0)

/-- The keys of a map with their values. -/
def items (v : Value) : Except RenderError Value :=
  match v with
  | .map members => .ok (.seq (members.map fun m => Value.pairOf m.1 m.2))
  | _ => .error Value.invalid

end ViewBridge.Template.Filter
