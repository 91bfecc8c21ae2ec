import ViewBridge.Value.Operator
/-!
# Slices

A slice of a text or a sequence is what lies from one position up to another one, taken in steps. A negative
position counts from the end, and a negative step goes from the end to the start.

Results:
* `slice_none`: nothing is cut out of nothing.
* `everyNth_one`: a step of one leaves nothing out.
-/
namespace ViewBridge.Value

variable {α : Type}

/-- A position as a number of 64 bits: one before the start wraps around and lies beyond every end. -/
def address (n : Nat) (i : Int) : Nat :=
  if 0 ≤ i then i.toNat else ((n + i) % Nat.pow 2 64).toNat

/-- The first item and every `step`-th one after it. -/
def everyNth (step : Nat) (items : List α) : List α :=
  (items.zipIdx.filter fun p => p.2 % step == 0).map (·.1)

/-- The items from a position up to another one. -/
def forward (start stop : Option Int) (step : Nat) (items : List α) : List α :=
  let first := address items.length (start.getD 0)
  let last := match stop with
    | some i => address items.length i
    | Option.none => items.length
  everyNth step ((items.drop first).take (last - first))

/-- A position that lies among the items, or at their start. -/
def clipped (n : Nat) (i : Int) : Nat := if i < 0 then (n + i).toNat else i.toNat

/-- The items from a position down to another one, which is left out unless it is the first. -/
def backward (start stop : Option Int) (step : Nat) (items : List α) : List α :=
  let first := match start with
    | some i => min (clipped items.length i) (items.length - 1)
    | Option.none => items.length - 1
  let last := clipped items.length (stop.getD 0)
  let positions := (List.range (first + 1 - last)).map fun i => first - i
  let count := if last = 0 then (first + step) / step else (first - last + step - 1) / step
  ((everyNth step positions).take count).filterMap fun i => items[i]?

/-- The items between two positions. -/
def between (start stop : Option Int) (step : Int) (items : List α) : List α :=
  if 0 < step then forward start stop step.toNat items else backward start stop step.natAbs items

/-- A bound of a slice; none is no bound. -/
def bound? : Value → Except RenderError (Option Int)
  | .none => .ok Option.none
  | v =>
    match v.bounded? int64Min int64Max with
    | some i => .ok (some i)
    | Option.none => .error invalid

/-- The slice of a text or a sequence between two bounds, in steps. -/
def slice (v start stop step : Value) : Except RenderError Value := do
  let start ← start.bound?
  let stop ← stop.bound?
  let step := (← step.bound?).getD 1
  if step = 0 then .error invalid
  else
    match v with
    | .undefined | .none => .ok (.seq [])
    | .text _ s => .ok (ofChars (between start stop step s))
    | .seq items | .series items => .ok (.series (between start stop step items))
    | _ => .error invalid

theorem slice_none : slice .undefined .none .none .none = .ok (.seq []) := rfl

theorem everyNth_one (items : List α) : everyNth 1 items = items := by
  have h : (items.zipIdx.filter fun p => p.2 % 1 == 0) = items.zipIdx :=
    List.filter_eq_self.2 fun p _ => by simp [Nat.mod_one]
  rw [everyNth, h, List.zipIdx_map_fst]

end ViewBridge.Value
