import RowStore.Query.Source

/-!
# Filters and joins

A filter hands on the rows of its input that satisfy a condition.  A join goes through its left
input once and through its right input once for every left row, and hands on each pair that
satisfies the condition as one row, the left values before the right ones.
-/

namespace RowStore

/-! ## 1. Filters -/

/-- A place in a filter whose input is at a place in `σ`. -/
structure FilterPlace (σ : Type) where
  input : σ
  opened : Bool

/-- The rows of an input that satisfy a condition. -/
def Source.filter {σ : Type} (condition : Condition) (input : Source σ) :
    Source (FilterPlace σ) where
  fresh := ⟨input.fresh, false⟩
  start place e :=
    match input.start place.input e with
    | (inner, e, .error f) => (⟨inner, place.opened⟩, e, .error f)
    | (inner, e, .ok _) => (⟨inner, true⟩, e, .ok ())
  rewind place e :=
    match input.rewind place.input e with
    | (inner, e, result) => (⟨inner, place.opened⟩, e, result)
  close place := ⟨input.close place.input, false⟩
  run place e acc k :=
    if place.opened then
      let pass := input.run place.input e acc fun acc row e =>
        if condition.holds row then k acc row e else (e, acc, .more)
      ⟨⟨pass.place, true⟩, pass.engine, pass.collected, pass.verdict⟩
    else ⟨place, e, acc, .failed (.notOpened .filter)⟩

/-! ## 2. Joins -/

/-- The left values, then the right ones, stored nowhere. -/
def Row.joined (a b : Row) : Row := ⟨a.values ++ b.values, none⟩

/-- A place in a join: where its inputs are, and the left row that is being matched. -/
structure JoinPlace (σ ρ : Type) where
  left : σ
  right : ρ
  current : Option Row
  opened : Bool

/-- What a join carries from one left row to the next: what the consumer collected, the place of
the right input, and the left row that is being matched. -/
structure JoinState (ρ β : Type) where
  collected : β
  right : ρ
  current : Option Row

/-- **Match one left row** with the rows that are left of the right input, then start the right
input over.  The left row stays the current one if the consumer or the right input stops before its
end. -/
def Source.matchRow {ρ β : Type} (condition : JoinCondition) (right : Source ρ) (k : Consumer β)
    (outer : Row) (place : ρ) (acc : β) (e : Engine) : Engine × JoinState ρ β × Signal :=
  let pass := right.run place e acc fun acc inner e =>
    if condition.holds outer inner then k acc (outer.joined inner) e else (e, acc, .more)
  match pass.verdict with
  | .stopped => (pass.engine, ⟨pass.collected, pass.place, some outer⟩, .stop)
  | .failed f => (pass.engine, ⟨pass.collected, pass.place, some outer⟩, .fail f)
  | .ended =>
    match right.rewind pass.place pass.engine with
    | (place, e, .error f) => (e, ⟨pass.collected, place, none⟩, .fail f)
    | (place, e, .ok _) => (e, ⟨pass.collected, place, none⟩, .more)

/-- Match every left row that is left. -/
def Source.matchRows {σ ρ β : Type} (condition : JoinCondition) (left : Source σ)
    (right : Source ρ) (k : Consumer β) (leftPlace : σ) (state : JoinState ρ β) (e : Engine) :
    Pass (JoinPlace σ ρ) β :=
  let pass := left.run leftPlace e state fun state outer e =>
    right.matchRow condition k outer state.right state.collected e
  ⟨⟨pass.place, pass.collected.right, pass.collected.current, true⟩, pass.engine,
    pass.collected.collected, pass.verdict⟩

/-- The pairs of rows of two inputs that satisfy a condition. -/
def Source.join {σ ρ : Type} (condition : JoinCondition) (left : Source σ) (right : Source ρ) :
    Source (JoinPlace σ ρ) where
  fresh := ⟨left.fresh, right.fresh, none, false⟩
  start place e :=
    match left.start place.left e with
    | (l, e, .error f) => ({ place with left := l }, e, .error f)
    | (l, e, .ok _) =>
      match right.start place.right e with
      | (r, e, .error f) => ({ place with left := l, right := r }, e, .error f)
      | (r, e, .ok _) => (⟨l, r, none, true⟩, e, .ok ())
  rewind place e :=
    match left.rewind place.left e with
    | (l, e, .error f) => ({ place with left := l }, e, .error f)
    | (l, e, .ok _) =>
      match right.rewind place.right e with
      | (r, e, .error f) => ({ place with left := l, right := r }, e, .error f)
      | (r, e, .ok _) => ({ place with left := l, right := r, current := none }, e, .ok ())
  close place := ⟨left.close place.left, right.close place.right, none, false⟩
  run place e acc k :=
    if place.opened then
      match place.current with
      | none => left.matchRows condition right k place.left ⟨acc, place.right, none⟩ e
      | some outer =>
        match right.matchRow condition k outer place.right acc e with
        | (e, state, .more) => left.matchRows condition right k place.left state e
        | (e, state, signal) =>
          ⟨⟨place.left, state.right, state.current, true⟩, e, state.collected, signal.verdict⟩
    else ⟨place, e, acc, .failed (.notOpened .join)⟩

end RowStore
