import RowStore.Codec.Lemmas
import RowStore.Proofs.Engine.Fetching
import RowStore.Proofs.Query.Performing

/-!
# Rows of the right types

Operators trust the rows of their inputs: what the functions that put plans together have checked
once, of columns and their types, is not checked again of the rows.  This is right if every row
that an operator hands out matches its schema.

An operator is *typed* (`Source.Typed`) if it hands only such rows to its consumer, whatever is asked
of it and in whatever order, and fails in no other ways than the ones that are named; the engine may
be anything that requests keep.  There is one statement for each operator, and the typing of a plan
is put together from them by the tree.
-/

namespace RowStore

/-! ## 1. Rows and schemas -/

namespace Row

theorem FitsColumns.append : ∀ {vs ws : List Value} {cs ds : List Column}, FitsColumns vs cs →
    FitsColumns ws ds → FitsColumns (vs ++ ws) (cs ++ ds)
  | [], _, [], _, _, h => h
  | _ :: _, _, _ :: _, _, h, h' => ⟨h.1, FitsColumns.append h.2 h'⟩

/-- Only the types of columns matter. -/
theorem FitsColumns.congr : ∀ {vs : List Value} {cs ds : List Column},
    cs.map Column.type = ds.map Column.type → FitsColumns vs cs → FitsColumns vs ds
  | [], [], [], _, h => h
  | _ :: _, _ :: _, _ :: _, he, h => by
    simp only [List.map_cons, List.cons.injEq] at he
    exact ⟨he.1 ▸ h.1, FitsColumns.congr he.2 h.2⟩

theorem FitsColumns.value : ∀ {vs : List Value} {cs : List Column} {i : Nat} {c : Column},
    FitsColumns vs cs → cs[i]? = some c → ∃ v, vs[i]? = some v ∧ v.fits c.type
  | [], [], i, c, _, hc => by simp at hc
  | v :: vs, d :: cs, 0, c, h, hc => by
    simp only [List.getElem?_cons_zero, Option.some.injEq] at hc
    exact ⟨v, rfl, hc ▸ h.1⟩
  | v :: vs, d :: cs, i + 1, c, h, hc => by
    simp only [List.getElem?_cons_succ] at hc ⊢
    exact FitsColumns.value h.2 hc

variable {row other : Row} {schema schema' : Schema}

/-- Only the types of a schema matter to its rows. -/
theorem fits_of_types (he : schema.types = schema'.types) (h : row.fits schema) :
    row.fits schema' :=
  fits_iff.mpr ((fits_iff.mp h).congr he)

/-- The names of columns do not matter to rows. -/
theorem fits_qualified (label : String) (h : row.fits schema) :
    row.fits (schema.qualified label) :=
  fits_of_types (by simp [Schema.types, Schema.qualified, Function.comp_def]) h

/-- A pair of rows matches the schemas' columns side by side. -/
theorem fits_joined (h : row.fits schema) (h' : other.fits schema') :
    (row.joined other).fits (schema.append schema') :=
  fits_iff.mpr ((fits_iff.mp h).append (fits_iff.mp h'))

/-- **A row has a value in each column of its schema**, and of its type. -/
theorem value_of_fits {i : Nat} {c : Column} (h : row.fits schema)
    (hc : schema.column? i = some c) : ∃ v, row.values[i]? = some v ∧ v.fits c.type :=
  (fits_iff.mp h).value hc

theorem fits_countRow (n : Nat) : (Source.countRow n).fits Plan.countSchema := rfl

end Row

/-! ## 2. Groups -/

/-- A result that is no failure, or one of these. -/
def Within {α : Type} (Fails : Failure → Prop) : Except Failure α → Prop
  | .ok _ => True
  | .error f => Fails f

namespace AggregateFn

theorem sumFrom_fails {f : Failure} : ∀ {vs : List Int64} {acc : Int64},
    sumFrom acc vs = .error f → f = .sumOverflow
  | v :: vs, acc, h => by
    unfold sumFrom at h
    split at h
    · rename_i g hadd
      cases h
      unfold add? at hadd
      simp only at hadd
      split at hadd <;> cases hadd
      rfl
    · exact sumFrom_fails h

theorem ofInts_fails {fn : AggregateFn} {vs : List Int64} {f : Failure}
    (h : fn.ofInts vs = .error f) : f = .sumOverflow := by
  unfold ofInts at h
  split at h
  · cases h
  · split at h
    · rename_i g hsum
      cases h
      exact sumFrom_fails hsum
    · cases h
  · cases h
  · split at h
    · rename_i g hsum
      cases h
      exact sumFrom_fails hsum
    · cases h
  · cases h
  · cases h

/-- The integers of a column of integers. -/
theorem ints_of_fits : ∀ {values : List Value}, (∀ v ∈ values, v.fits .int64) →
    ∃ vs, ints values = .ok vs
  | [], _ => ⟨[], rfl⟩
  | v :: values, h => by
    obtain ⟨n, rfl⟩ := Value.fits_int64_iff.mp (h v List.mem_cons_self)
    obtain ⟨vs, hvs⟩ := ints_of_fits fun w hw => h w (List.mem_cons_of_mem _ hw)
    unfold ints at hvs ⊢
    rw [List.mapM_cons, hvs]
    exact ⟨n :: vs, rfl⟩

/-- **A function of the values of a column that it is for** fails only if a sum gets too large. -/
theorem compute_fails {fn : AggregateFn} {type : ColumnType} {values : List Value} {f : Failure}
    (hfn : fn = .count ∨ type = .int64) (hv : ∀ v ∈ values, v.fits type)
    (h : fn.compute values = .error f) : f = .sumOverflow := by
  unfold compute at h
  split at h
  · cases h
  · rename_i hcount
    obtain rfl := hfn.resolve_left hcount
    obtain ⟨vs, hints⟩ := ints_of_fits hv
    rw [hints] at h
    exact ofInts_fails h

end AggregateFn

/-- **The aggregate can be computed of rows of a schema**: it is of a column of it, of integers or
a count, by groups of a column that has groups. -/
structure Aggregation.Suits (a : Aggregation) (schema : Schema) (column : Column) : Prop where
  column_eq : schema.column? a.column = some column
  computes : a.fn = .count ∨ column.type = .int64
  groups : ∀ i, a.group = some i → ∃ c, schema.column? i = some c ∧ c.type ≠ .bool

/-- The groups have keys of the grouping column and values of the aggregated one. -/
def Groups.Typed (a : Aggregation) (schema : Schema) (column : Column) (groups : Groups) : Prop :=
  ∀ group ∈ groups, Row.FitsColumns group.1.toList (a.group.bind schema.column?).toList
    ∧ ∀ v ∈ group.2, v.fits column.type

section Groups

variable {a : Aggregation} {schema : Schema} {column : Column} {groups : Groups} {row : Row}
  {f : Failure}

theorem Groups.Typed.add {key : Option Value} {v : Value} :
    ∀ {groups : Groups}, groups.Typed a schema column →
      Row.FitsColumns key.toList (a.group.bind schema.column?).toList → v.fits column.type →
      (groups.add key v).Typed a schema column
  | [], _, hkey, hv => by
    intro group hm
    obtain rfl := List.mem_singleton.mp hm
    exact ⟨hkey, by simpa using hv⟩
  | (k, vs) :: rest, h, hkey, hv => by
    obtain ⟨hfirst, hrest⟩ := List.forall_mem_cons.mp h
    have hnew : Row.FitsColumns key.toList (a.group.bind schema.column?).toList
        ∧ ∀ w ∈ [v], w.fits column.type := ⟨hkey, by simpa using hv⟩
    unfold Groups.add
    split
    · exact List.forall_mem_cons.mpr ⟨hnew, h⟩
    · exact List.forall_mem_cons.mpr
        ⟨⟨hfirst.1, List.forall_mem_cons.mpr ⟨hv, hfirst.2⟩⟩, hrest⟩
    · exact List.forall_mem_cons.mpr ⟨hfirst, Groups.Typed.add hrest hkey hv⟩

theorem Aggregation.typed_empty (a : Aggregation) (schema : Schema) (column : Column) :
    a.empty.Typed a schema column := by
  unfold Aggregation.empty
  cases hg : a.group with
  | none =>
    intro group hm
    obtain rfl := List.mem_singleton.mp hm
    rw [hg]
    exact ⟨trivial, nofun⟩
  | some i => exact nofun

/-- The value a row is grouped by; none if there are no groups. -/
def Aggregation.keyAt (a : Aggregation) (row : Row) : Option Value :=
  a.group.bind fun i => row.values[i]?

/-- **The key of a row's group** is a value of the grouping column. -/
theorem Aggregation.Suits.keyOf (hs : a.Suits schema column) (h : row.fits schema) :
    a.keyOf schema row = .ok (a.keyAt row)
      ∧ Row.FitsColumns (a.keyAt row).toList (a.group.bind schema.column?).toList := by
  unfold Aggregation.keyOf Aggregation.keyAt
  cases hg : a.group with
  | none => exact ⟨rfl, trivial⟩
  | some i =>
    obtain ⟨c, hc, hbool⟩ := hs.groups i hg
    obtain ⟨v, hv, hfits⟩ := Row.value_of_fits h hc
    have hkey : Aggregation.checkKey c.type v = .ok v := by
      unfold Aggregation.checkKey
      cases ht : c.type with
      | bool => exact absurd ht hbool
      | int64 =>
        obtain ⟨n, rfl⟩ := Value.fits_int64_iff.mp (ht ▸ hfits)
        rfl
      | bytes width =>
        obtain ⟨s, rfl⟩ := Value.fits_bytes_iff.mp (ht ▸ hfits)
        rfl
    constructor
    · simp only [Option.bind_some, hc, Option.map_some, Aggregation.valueAt, hv, hkey, Except.map]
    · simp only [Option.bind_some, hc, hv, Option.toList_some]
      exact ⟨hfits, trivial⟩

/-- **A row of the schema can be added** to the groups. -/
theorem Aggregation.Suits.addRow (hs : a.Suits schema column) (h : row.fits schema)
    (hg : groups.Typed a schema column) :
    ∃ groups', a.addRow schema groups row = .ok groups' ∧ groups'.Typed a schema column := by
  obtain ⟨v, hv, hfits⟩ := Row.value_of_fits h hs.column_eq
  obtain ⟨hkey, hkeyFits⟩ := hs.keyOf h
  refine ⟨groups.add (a.keyAt row) v, ?_, hg.add hkeyFits hfits⟩
  simp only [Aggregation.addRow, Aggregation.valueAt, hv, hkey]

/-- **The rows of the result** match the aggregate's schema; they can be computed unless a sum gets
too large. -/
theorem Aggregation.Suits.rows (hs : a.Suits schema column) :
    ∀ {groups : Groups}, groups.Typed a schema column →
      Within (· = .sumOverflow) (groups.rows a.fn)
      ∧ ∀ list, groups.rows a.fn = .ok list →
        ∀ row ∈ list, row.fits (Plan.aggregateSchema a schema)
  | [], _ => by
    refine ⟨trivial, fun list h row hm => ?_⟩
    cases h
    cases hm
  | (key, values) :: rest, h => by
    obtain ⟨⟨hkey, hvalues⟩, hrest⟩ := List.forall_mem_cons.mp h
    obtain ⟨hfail, hfits⟩ := Aggregation.Suits.rows hs hrest
    have hvalues : ∀ v ∈ values.reverse, v.fits column.type :=
      fun v hm => hvalues v (List.mem_reverse.mp hm)
    unfold Groups.rows
    cases hv : a.fn.compute values.reverse with
    | error g =>
      exact ⟨AggregateFn.compute_fails hs.computes hvalues hv, fun list h => by cases h⟩
    | ok v =>
      cases hmore : Groups.rows a.fn rest with
      | error g =>
        rw [hmore] at hfail
        exact ⟨hfail, fun list h => by cases h⟩
      | ok more =>
        refine ⟨trivial, fun list h row hm => ?_⟩
        obtain rfl := Except.ok.inj h
        rcases List.mem_append.mp hm with hm | hm
        · obtain ⟨n, -, rfl⟩ : ∃ n, v = some n ∧ (⟨key.toList ++ [.int n], none⟩ : Row) = row := by
            simpa using hm
          refine Row.fits_iff.mpr (hkey.append ?_)
          simp only [hs.column_eq, Option.map_some, Option.toList_some]
          exact ⟨rfl, trivial⟩
        · exact hfits more hmore row hm

end Groups

/-! ## 3. Typed operators -/

/-- An answer that is no failure, or one of these. -/
def Signal.Within (Fails : Failure → Prop) : Signal → Prop
  | fail f => Fails f
  | _ => True

/-- An end that is no failure, or one of these. -/
def Verdict.Within (Fails : Failure → Prop) : Verdict → Prop
  | failed f => Fails f
  | _ => True

theorem Signal.Within.verdict {Fails : Failure → Prop} {signal : Signal}
    (h : signal.Within Fails) : signal.verdict.Within Fails := by
  cases signal <;> exact h

section Typed

variable {σ β : Type}

/-- **A consumer of rows of a schema**: it keeps what is known of the engine and of what it has
collected, and fails in no other ways than these. -/
def Consumer.Takes (k : Consumer β) (schema : Schema) (S : Engine → Prop) (Fails : Failure → Prop)
    (Keeps : β → Prop) : Prop :=
  ∀ {acc : β} {row : Row} {e : Engine}, row.fits schema → Keeps acc → S e →
    ∀ {e' : Engine} {acc' : β} {signal : Signal}, k acc row e = (e', acc', signal) →
      S e' ∧ Keeps acc' ∧ signal.Within Fails

/-- Where a pass with such a consumer has led. -/
structure Pass.Sound (pass : Pass σ β) (stands : σ → Prop) (S : Engine → Prop)
    (Fails : Failure → Prop) (Keeps : β → Prop) : Prop where
  place : stands pass.place
  engine : S pass.engine
  collected : Keeps pass.collected
  verdict : pass.verdict.Within Fails

/-- Where opening an operator or starting it over has led. -/
structure Restarted (stands : σ → Prop) (S : Engine → Prop) (Fails : Failure → Prop)
    (out : σ × Engine × Except Failure Unit) : Prop where
  place : stands out.1
  engine : S out.2.1
  failure : Within Fails out.2.2

/-- **An operator is typed**: from all places where it may stand it hands out rows of its schema
only, and comes to such places only. -/
structure Source.Typed (s : Source σ) (schema : Schema) (S : Engine → Prop)
    (Fails : Failure → Prop) (stands : σ → Prop) : Prop where
  fresh : stands s.fresh
  close : ∀ {place : σ}, stands place → stands (s.close place)
  start : ∀ {place : σ} {e : Engine}, stands place → S e →
    Restarted stands S Fails (s.start place e)
  rewind : ∀ {place : σ} {e : Engine}, stands place → S e →
    Restarted stands S Fails (s.rewind place e)
  run : ∀ {β : Type} {k : Consumer β} {Keeps : β → Prop}, k.Takes schema S Fails Keeps →
    ∀ {place : σ} {e : Engine} {acc : β}, stands place → S e → Keeps acc →
      (s.run place e acc k).Sound stands S Fails Keeps

variable {schema : Schema} {S : Engine → Prop} {Fails : Failure → Prop} {Keeps : β → Prop}
  {k : Consumer β}

/-- A consumer takes the rows of a schema with the same types, too. -/
theorem Consumer.Takes.of_fits {schema' : Schema} (h : k.Takes schema' S Fails Keeps)
    (hfits : ∀ {row : Row}, row.fits schema → row.fits schema') : k.Takes schema S Fails Keeps :=
  fun hrow => h (hfits hrow)

/-- Consumers that get some of the rows only, changed or not. -/
theorem Consumer.Takes.some {schema' : Schema} (h : k.Takes schema' S Fails Keeps)
    (keeps : Row → Bool) (change : Row → Row)
    (hfits : ∀ {row : Row}, row.fits schema → (change row).fits schema') :
    Consumer.Takes (fun acc row e => if keeps row then k acc (change row) e else (e, acc, .more))
      schema S Fails Keeps := by
  intro acc row e hrow hacc he e' acc' signal hk
  by_cases hc : keeps row = true
  · simp only [hc, if_true] at hk
    exact h (hfits hrow) hacc he hk
  · simp only [hc, Bool.false_eq_true, if_false] at hk
    cases hk
    exact ⟨he, hacc, trivial⟩

/-- **Handing over rows of the schema** keeps what the consumer keeps; what is left are some of
them. -/
theorem Consumer.Takes.feed (h : k.Takes schema S Fails Keeps) :
    ∀ {rows : List Row} {acc : β} {e : Engine}, (∀ row ∈ rows, row.fits schema) → Keeps acc → S e →
      ∀ {left : List Row} {e' : Engine} {acc' : β} {signal : Signal},
        k.feed rows acc e = (left, e', acc', signal) →
        (∀ row ∈ left, row.fits schema) ∧ S e' ∧ Keeps acc' ∧ signal.Within Fails
  | [], acc, e, hrows, hacc, he, left, e', acc', signal, hf => by
    cases hf
    exact ⟨hrows, he, hacc, trivial⟩
  | row :: rows, acc, e, hrows, hacc, he, left, e', acc', signal, hf => by
    obtain ⟨hrow, hrest⟩ := List.forall_mem_cons.mp hrows
    rcases hk : k acc row e with ⟨e₁, acc₁, answer⟩
    obtain ⟨he₁, hacc₁, hfail⟩ := h hrow hacc he hk
    rw [Consumer.feed, hk] at hf
    cases answer with
    | more => exact h.feed hrest hacc₁ he₁ hf
    | stop =>
      cases hf
      exact ⟨hrest, he₁, hacc₁, trivial⟩
    | fail f =>
      cases hf
      exact ⟨hrest, he₁, hacc₁, hfail⟩

section Asked

variable {s : Source σ} {stands : σ → Prop} {place place' : σ} {e e' : Engine}

/-- **The next row of a typed operator** matches its schema. -/
theorem Source.Typed.next (h : s.Typed schema S Fails stands) (hplace : stands place) (he : S e)
    {r : Except Failure (Option Row)} (hn : s.next place e = (place', e', r)) :
    stands place' ∧ S e' ∧ (∀ row, r = .ok (some row) → row.fits schema) ∧ Within Fails r := by
  have hk : Consumer.one.Takes schema S Fails fun found => ∀ row, found = some row →
      row.fits schema := by
    intro found row e hrow _ he e' found' signal hk
    cases hk
    exact ⟨he, by rintro _ ⟨⟩; exact hrow, trivial⟩
  have hrun : (s.run place e none Consumer.one).Sound stands S Fails fun found =>
      ∀ row, found = some row → row.fits schema := h.run hk hplace he nofun
  rcases hpass : s.run place e none Consumer.one with ⟨inner, e₁, found, verdict⟩
  rw [hpass] at hrun
  rw [Source.next_eq hpass] at hn
  cases verdict with
  | failed f =>
    cases hn
    exact ⟨hrun.place, hrun.engine, nofun, hrun.verdict⟩
  | stopped | ended =>
    cases hn
    exact ⟨hrun.place, hrun.engine, fun row hr => hrun.collected row (Except.ok.inj hr), trivial⟩

/-- **All rows that are left to a typed operator** match its schema, also if it fails behind
them. -/
theorem Source.Typed.drain (h : s.Typed schema S Fails stands) (hplace : stands place) (he : S e)
    {rows : List Row} {r : Except Failure Unit} (hd : s.drain place e = (place', e', rows, r)) :
    ∀ row ∈ rows, row.fits schema := by
  have hk : Consumer.collect.Takes schema S Fails fun rows => ∀ row ∈ rows, row.fits schema := by
    intro rows row e hrow hrows he e' rows' signal hk
    cases hk
    exact ⟨he, List.forall_mem_cons.mpr ⟨hrow, hrows⟩, trivial⟩
  have hrun : (s.run place e [] Consumer.collect).Sound stands S Fails fun rows =>
      ∀ row ∈ rows, row.fits schema := h.run hk hplace he nofun
  unfold Source.drain at hd
  rcases hpass : s.run place e [] Consumer.collect with ⟨inner, e₁, found, verdict⟩
  rw [hpass] at hrun
  have hpass : s.run place e [] (fun rows row e => (e, row :: rows, .more))
      = ⟨inner, e₁, found, verdict⟩ := hpass
  simp only [hpass] at hd
  have hfound : ∀ row ∈ found.reverse, row.fits schema :=
    fun row hm => hrun.collected row (List.mem_reverse.mp hm)
  cases verdict <;> cases hd <;> exact hfound

end Asked

/-! ## 4. Leaves -/

/-- Rows that are there match the schema. -/
def RowsFit (schema : Schema) (place : Option (List Row)) : Prop :=
  ∀ left, place = some left → ∀ row ∈ left, row.fits schema

theorem rowsFit_none (schema : Schema) : RowsFit schema none := nofun

theorem rowsFit_some {rows : List Row} (h : ∀ row ∈ rows, row.fits schema) :
    RowsFit schema (some rows) := by
  rintro _ ⟨⟩
  exact h

theorem typed_rows {rows : List Row} (h : ∀ row ∈ rows, row.fits schema)
    (hclosed : Fails (.notOpened .rows)) :
    (Source.ofRows rows).Typed schema S Fails (RowsFit schema) where
  fresh := rowsFit_none schema
  close _ := rowsFit_none schema
  start _ he := ⟨rowsFit_some h, he, trivial⟩
  rewind _ he := ⟨rowsFit_some h, he, trivial⟩
  run {β k Keeps} hk {place e acc} hplace he hacc := by
    cases place with
    | none => exact ⟨hplace, he, hacc, hclosed⟩
    | some left =>
      rcases hf : k.feed left acc e with ⟨left', e', acc', signal⟩
      obtain ⟨hleft, he', hacc', hfail⟩ := hk.feed (hplace left rfl) hacc he hf
      simp only [Source.ofRows, hf]
      exact ⟨rowsFit_some hleft, he', hacc', hfail.verdict⟩

/-- **The pages of a table have rows of its schema**, as long as the engine is one of these; it
stays one when they are requested, and requests fail in no other ways than these. -/
structure TableFile.Serves (table : TableFile) (tx : Tx) (S : Engine → Prop)
    (Fails : Failure → Prop) : Prop where
  count : ∀ {e : Engine} {f : Failure}, S e → table.countPages e.disk = .error f → Fails f
  denied : ∀ {e e' : Engine} {i : Nat} {f : Failure}, S e →
    e.fetch tx .read (table.pageId i) = (e', .error f) → S e' ∧ Fails f
  fetched : ∀ {e e' : Engine} {i : Nat} {frame : Frame}, S e →
    e.fetch tx .read (table.pageId i) = (e', .ok frame) →
      S e' ∧ (∀ row ∈ frame.page.rows, row.fits table.schema) ∧ Within Fails frame.use

/-- The rows that are left of a page match the schema. -/
def ScanPlace.Fits (schema : Schema) (place : ScanPlace) : Prop :=
  ∀ row ∈ place.pending, row.fits schema

theorem ScanPlace.fits_fresh (schema : Schema) : ScanPlace.Fits schema {} := nofun

section Scan

variable {tx : Tx} {table : TableFile}

theorem ScanPlace.runPages_sound (hs : table.Serves tx S Fails)
    (hk : k.Takes table.schema S Fails Keeps) : ∀ (n : Nat) {place : ScanPlace} {e : Engine}
      {acc : β}, place.Fits table.schema → S e → Keeps acc →
      (runPages tx table k n place e acc).Sound (ScanPlace.Fits table.schema) S Fails Keeps
  | 0, place, e, acc, hplace, he, hacc => ⟨hplace, he, hacc, trivial⟩
  | n + 1, place, e, acc, hplace, he, hacc => by
    rcases hfetch : e.fetch tx .read (table.pageId place.nextPage) with ⟨e₁, result⟩
    simp only [runPages, hfetch]
    cases result with
    | error f =>
      obtain ⟨he₁, hf⟩ := hs.denied he hfetch
      exact ⟨hplace, he₁, hacc, hf⟩
    | ok frame =>
      obtain ⟨he₁, hrows, hfail⟩ := hs.fetched he hfetch
      cases huse : frame.use with
      | error f =>
        rw [huse] at hfail
        simp only [huse]
        exact ⟨hplace, he₁, hacc, hfail⟩
      | ok page =>
        obtain rfl := Frame.page_of_use huse
        simp only [huse]
        rcases hf : k.feed frame.page.rows acc e₁ with ⟨left, e', acc', signal⟩
        -- the rows of the page that were not taken are left for the next request
        obtain ⟨hleft, he', hacc', hfail⟩ := hk.feed hrows hacc he₁ hf
        cases signal with
        | more => exact runPages_sound hs hk n hleft he' hacc'
        | stop => exact ⟨hleft, he', hacc', trivial⟩
        | fail f => exact ⟨hleft, he', hacc', hfail.verdict⟩

/-- **A scan of a table hands out rows of the table's schema.** -/
theorem ScanPlace.run_sound (hs : table.Serves tx S Fails)
    (hk : k.Takes table.schema S Fails Keeps) {place : ScanPlace} {e : Engine} {acc : β}
    (hplace : place.Fits table.schema) (he : S e) (hacc : Keeps acc) :
    (ScanPlace.run tx table place e acc k).Sound (ScanPlace.Fits table.schema) S Fails Keeps := by
  unfold ScanPlace.run
  cases hd : place.done with
  | true => exact ⟨hplace, he, hacc, trivial⟩
  | false =>
    simp only [Bool.false_eq_true, if_false]
    rcases hf : k.feed place.pending acc e with ⟨left, e', acc', signal⟩
    obtain ⟨hleft, he', hacc', hfail⟩ := hk.feed hplace hacc he hf
    cases signal with
    | more =>
      cases hcount : place.countPages table e'.disk with
      | error f =>
        refine ⟨hleft, he', hacc', ?_⟩
        unfold countPages at hcount
        split at hcount
        · cases hcount
        · exact hs.count he' hcount
      | ok count => exact runPages_sound hs hk _ hleft he' hacc'
    | stop => exact ⟨hleft, he', hacc', trivial⟩
    | fail f => exact ⟨hleft, he', hacc', hfail.verdict⟩

theorem typed_ofTable (hs : table.Serves tx S Fails) :
    (Source.ofTable tx table).Typed table.schema S Fails (ScanPlace.Fits table.schema) where
  fresh := ScanPlace.fits_fresh _
  close hplace := hplace
  start _ he := ⟨ScanPlace.fits_fresh _, he, trivial⟩
  rewind _ he := ⟨ScanPlace.fits_fresh _, he, trivial⟩
  run hk _ _ _ hplace he hacc := ScanPlace.run_sound hs hk hplace he hacc

/-- A place in a scan that is open, or none. -/
def ScanFits (schema : Schema) (place : Option ScanPlace) : Prop :=
  ∀ inner, place = some inner → inner.Fits schema

theorem scanFits_none (schema : Schema) : ScanFits schema none := nofun

theorem scanFits_some {place : ScanPlace} (h : place.Fits schema) : ScanFits schema (some place) := by
  rintro _ ⟨⟩
  exact h

theorem typed_scan (label : String) (hs : table.Serves tx S Fails)
    (hclosed : Fails (.notOpened .scan)) :
    (Source.scan tx table).Typed (table.schema.qualified label) S Fails
      (ScanFits table.schema) where
  fresh := scanFits_none _
  close _ := scanFits_none _
  start _ he := ⟨scanFits_some (ScanPlace.fits_fresh _), he, trivial⟩
  rewind {place e} hplace he := by
    cases place with
    | none => exact ⟨hplace, he, hclosed⟩
    | some inner => exact ⟨scanFits_some (ScanPlace.fits_fresh _), he, trivial⟩
  run {β k Keeps} hk {place e acc} hplace he hacc := by
    cases place with
    | none => exact ⟨hplace, he, hacc, hclosed⟩
    | some inner =>
      have hk : k.Takes table.schema S Fails Keeps := hk.of_fits (Row.fits_qualified label)
      have hsound := ScanPlace.run_sound hs hk (hplace inner rfl) he hacc
      exact ⟨scanFits_some hsound.place, hsound.engine, hsound.collected, hsound.verdict⟩

end Scan

/-! ## 5. Operators with inputs -/

section Inputs

variable {ρ : Type} {input left : Source σ} {right : Source ρ} {leftSchema rightSchema : Schema}
  {stands standsLeft : σ → Prop} {standsRight : ρ → Prop}

theorem typed_filter (condition : Condition) (h : input.Typed schema S Fails stands)
    (hclosed : Fails (.notOpened .filter)) :
    (Source.filter condition input).Typed schema S Fails (fun place => stands place.input) where
  fresh := h.fresh
  close hplace := h.close hplace
  start {place e} hplace he := by
    have hstart := h.start hplace he
    simp only [Source.filter]
    rcases hs : input.start place.input e with ⟨inner, e', r⟩
    rw [hs] at hstart
    cases r with
    | error f => exact ⟨hstart.place, hstart.engine, hstart.failure⟩
    | ok u => exact ⟨hstart.place, hstart.engine, trivial⟩
  rewind hplace he :=
    have hrewind := h.rewind hplace he
    ⟨hrewind.place, hrewind.engine, hrewind.failure⟩
  run {β k Keeps} hk {place e acc} hplace he hacc := by
    unfold Source.filter
    cases ho : place.opened with
    | false =>
      simp only [ho, Bool.false_eq_true, if_false]
      exact ⟨hplace, he, hacc, hclosed⟩
    | true =>
      simp only [ho, if_true]
      have hrun := h.run (hk.some condition.holds (fun row => row) id) hplace he hacc
      exact ⟨hrun.place, hrun.engine, hrun.collected, hrun.verdict⟩

/-- The left row that is being matched is one of the left input. -/
def CurrentFits (schema : Schema) (current : Option Row) : Prop :=
  ∀ row, current = some row → row.fits schema

theorem currentFits_none (schema : Schema) : CurrentFits schema none := nofun

theorem currentFits_some {row : Row} (h : row.fits schema) : CurrentFits schema (some row) := by
  rintro _ ⟨⟩
  exact h

/-- What a join carries from one left row to the next. -/
structure JoinState.Sound (leftSchema : Schema) (standsRight : ρ → Prop) (Keeps : β → Prop)
    (state : JoinState ρ β) : Prop where
  collected : Keeps state.collected
  right : standsRight state.right
  current : CurrentFits leftSchema state.current

theorem matchRow_sound (condition : JoinCondition)
    (h : right.Typed rightSchema S Fails standsRight)
    (hk : k.Takes (leftSchema.append rightSchema) S Fails Keeps) {outer : Row}
    (houter : outer.fits leftSchema) {place : ρ} {acc : β} {e : Engine} (hplace : standsRight place)
    (he : S e) (hacc : Keeps acc) {e' : Engine} {state : JoinState ρ β} {signal : Signal}
    (hm : right.matchRow condition k outer place acc e = (e', state, signal)) :
    S e' ∧ state.Sound leftSchema standsRight Keeps ∧ signal.Within Fails := by
  have hrun := h.run (hk.some (condition.holds outer) outer.joined (Row.fits_joined houter))
    hplace he hacc
  unfold Source.matchRow at hm
  rcases hpass : right.run place e acc (fun acc inner e =>
      if condition.holds outer inner then k acc (outer.joined inner) e else (e, acc, .more))
    with ⟨place', e₁, acc', verdict⟩
  rw [hpass] at hrun
  simp only [hpass] at hm
  cases verdict with
  | stopped =>
    cases hm
    exact ⟨hrun.engine, ⟨hrun.collected, hrun.place, currentFits_some houter⟩, trivial⟩
  | failed f =>
    cases hm
    exact ⟨hrun.engine, ⟨hrun.collected, hrun.place, currentFits_some houter⟩, hrun.verdict⟩
  | ended =>
    -- the left row is done with, and the right input starts over for the next one
    have hrewind := h.rewind hrun.place hrun.engine
    rcases hr : right.rewind place' e₁ with ⟨again, e₂, r⟩
    simp only [hr] at hm hrewind
    cases r with
    | error f =>
      cases hm
      exact ⟨hrewind.engine, ⟨hrun.collected, hrewind.place, currentFits_none _⟩,
        hrewind.failure⟩
    | ok u =>
      cases hm
      exact ⟨hrewind.engine, ⟨hrun.collected, hrewind.place, currentFits_none _⟩, trivial⟩

/-- Where a join may stand. -/
structure JoinPlace.Sound (leftSchema : Schema) (standsLeft : σ → Prop) (standsRight : ρ → Prop)
    (place : JoinPlace σ ρ) : Prop where
  left : standsLeft place.left
  right : standsRight place.right
  current : CurrentFits leftSchema place.current

theorem matchRows_sound (condition : JoinCondition)
    (hl : left.Typed leftSchema S Fails standsLeft)
    (hr : right.Typed rightSchema S Fails standsRight)
    (hk : k.Takes (leftSchema.append rightSchema) S Fails Keeps) {place : σ}
    {state : JoinState ρ β} {e : Engine} (hplace : standsLeft place)
    (hstate : state.Sound leftSchema standsRight Keeps) (he : S e) :
    (left.matchRows condition right k place state e).Sound
      (JoinPlace.Sound leftSchema standsLeft standsRight) S Fails Keeps := by
  have hrows : Consumer.Takes
      (fun state outer e => right.matchRow condition k outer state.right state.collected e)
      leftSchema S Fails (JoinState.Sound leftSchema standsRight Keeps) :=
    fun houter hstate he _ _ _ hm =>
      matchRow_sound condition hr hk houter hstate.right he hstate.collected hm
  have hrun := hl.run hrows hplace he hstate
  exact ⟨⟨hrun.place, hrun.collected.right, hrun.collected.current⟩, hrun.engine,
    hrun.collected.collected, hrun.verdict⟩

theorem typed_join (condition : JoinCondition) (hl : left.Typed leftSchema S Fails standsLeft)
    (hr : right.Typed rightSchema S Fails standsRight) (hclosed : Fails (.notOpened .join)) :
    (Source.join condition left right).Typed (leftSchema.append rightSchema) S Fails
      (JoinPlace.Sound leftSchema standsLeft standsRight) where
  fresh := ⟨hl.fresh, hr.fresh, currentFits_none _⟩
  close hplace := ⟨hl.close hplace.left, hr.close hplace.right, currentFits_none _⟩
  start {place e} hplace he := by
    have hleft := hl.start hplace.left he
    simp only [Source.join]
    rcases hs : left.start place.left e with ⟨l, e₁, first⟩
    rw [hs] at hleft
    cases first with
    | error f => exact ⟨⟨hleft.place, hplace.right, hplace.current⟩, hleft.engine, hleft.failure⟩
    | ok u =>
      have hright := hr.start hplace.right hleft.engine
      rcases hs₂ : right.start place.right e₁ with ⟨r, e₂, second⟩
      simp only [hs₂] at hright ⊢
      cases second with
      | error f =>
        exact ⟨⟨hleft.place, hright.place, hplace.current⟩, hright.engine, hright.failure⟩
      | ok u => exact ⟨⟨hleft.place, hright.place, currentFits_none _⟩, hright.engine, trivial⟩
  rewind {place e} hplace he := by
    have hleft := hl.rewind hplace.left he
    simp only [Source.join]
    rcases hs : left.rewind place.left e with ⟨l, e₁, first⟩
    rw [hs] at hleft
    cases first with
    | error f => exact ⟨⟨hleft.place, hplace.right, hplace.current⟩, hleft.engine, hleft.failure⟩
    | ok u =>
      have hright := hr.rewind hplace.right hleft.engine
      rcases hs₂ : right.rewind place.right e₁ with ⟨r, e₂, second⟩
      simp only [hs₂] at hright ⊢
      cases second with
      | error f =>
        exact ⟨⟨hleft.place, hright.place, hplace.current⟩, hright.engine, hright.failure⟩
      | ok u => exact ⟨⟨hleft.place, hright.place, currentFits_none _⟩, hright.engine, trivial⟩
  run {β k Keeps} hk {place e acc} hplace he hacc := by
    unfold Source.join
    cases ho : place.opened with
    | false =>
      simp only [ho, Bool.false_eq_true, if_false]
      exact ⟨hplace, he, hacc, hclosed⟩
    | true =>
      simp only [ho, if_true]
      cases hc : place.current with
      | none =>
        exact matchRows_sound condition hl hr hk hplace.left
          ⟨hacc, hplace.right, currentFits_none _⟩ he
      | some outer =>
        rcases hm : right.matchRow condition k outer place.right acc e with ⟨e', state, signal⟩
        obtain ⟨he', hstate, hfail⟩ := matchRow_sound condition hr hk (hplace.current outer hc)
          hplace.right he hacc hm
        simp only [hm]
        cases signal with
        | more => exact matchRows_sound condition hl hr hk hplace.left hstate he'
        | stop =>
          exact ⟨⟨hplace.left, hstate.right, hstate.current⟩, he', hstate.collected, trivial⟩
        | fail f =>
          exact ⟨⟨hplace.left, hstate.right, hstate.current⟩, he', hstate.collected,
            hfail.verdict⟩

/-- Where an aggregate may stand. -/
structure AggregatePlace.Sound (a : Aggregation) (schema : Schema) (stands : σ → Prop)
    (place : AggregatePlace σ) : Prop where
  input : stands place.input
  results : RowsFit (Plan.aggregateSchema a schema) place.results

/-- **Computing an aggregate** of typed rows fails with its input or because a sum gets too
large. -/
theorem aggregated_sound {a : Aggregation} {column : Column} (h : input.Typed schema S Fails stands)
    (hs : a.Suits schema column) (hsum : Fails .sumOverflow) {place : AggregatePlace σ} {e : Engine}
    (hplace : place.Sound a schema stands) (he : S e) :
    Restarted (AggregatePlace.Sound a schema stands) S Fails
      (input.aggregated a schema place e) := by
  have hk : Consumer.Takes (gathering a schema) schema S Fails (Groups.Typed a schema column) := by
    intro groups row e hrow hgroups he e' groups' signal hg
    obtain ⟨added, hadd, htyped⟩ := hs.addRow hrow hgroups
    rw [gathering, hadd] at hg
    cases hg
    exact ⟨he, htyped, trivial⟩
  have hrun := h.run hk hplace.input he (a.typed_empty schema column)
  rcases hpass : input.run place.input e a.empty (gathering a schema)
    with ⟨inner, e', groups, verdict⟩
  rw [hpass] at hrun
  obtain ⟨hfail, hfits⟩ := hs.rows hrun.collected
  -- no row of the schema is refused by the groups, so only the input and a sum can fail
  rw [aggregated_eq hpass]
  cases verdict with
  | failed f => exact ⟨⟨hrun.place, hplace.results⟩, hrun.engine, hrun.verdict⟩
  | stopped | ended =>
    cases hrows : groups.rows a.fn with
    | error f =>
      rw [hrows] at hfail
      exact ⟨⟨hrun.place, hplace.results⟩, hrun.engine, hfail ▸ hsum⟩
    | ok rows => exact ⟨⟨hrun.place, rowsFit_some (hfits rows hrows)⟩, hrun.engine, trivial⟩

theorem typed_aggregate {a : Aggregation} {column : Column}
    (h : input.Typed schema S Fails stands) (hs : a.Suits schema column)
    (hsum : Fails .sumOverflow) (hclosed : Fails (.notOpened .aggregate)) :
    (Source.aggregate a schema input).Typed (Plan.aggregateSchema a schema) S Fails
      (AggregatePlace.Sound a schema stands) where
  fresh := ⟨h.fresh, rowsFit_none _⟩
  close hplace := ⟨h.close hplace.input, rowsFit_none _⟩
  start {place e} hplace he := by
    have hstart := h.start hplace.input he
    simp only [Source.aggregate]
    rcases hi : input.start place.input e with ⟨inner, e', r⟩
    rw [hi] at hstart
    cases r with
    | error f => exact ⟨⟨hstart.place, hplace.results⟩, hstart.engine, hstart.failure⟩
    | ok u => exact aggregated_sound h hs hsum ⟨hstart.place, hplace.results⟩ hstart.engine
  rewind {place e} hplace he := by
    have hrewind := h.rewind hplace.input he
    simp only [Source.aggregate]
    rcases hi : input.rewind place.input e with ⟨inner, e', r⟩
    rw [hi] at hrewind
    cases r with
    | error f => exact ⟨⟨hrewind.place, hplace.results⟩, hrewind.engine, hrewind.failure⟩
    | ok u => exact aggregated_sound h hs hsum ⟨hrewind.place, hplace.results⟩ hrewind.engine
  run {β k Keeps} hk {place e acc} hplace he hacc := by
    unfold Source.aggregate
    cases hr : place.results with
    | none =>
      simp only [hr]
      exact ⟨hplace, he, hacc, hclosed⟩
    | some rows =>
      rcases hf : k.feed rows acc e with ⟨left, e', acc', signal⟩
      obtain ⟨hleft, he', hacc', hfail⟩ := hk.feed (hplace.results rows hr) hacc he hf
      simp only [hr, hf]
      exact ⟨⟨hplace.input, rowsFit_some hleft⟩, he', hacc', hfail.verdict⟩

/-- Apply a change to every row, and count the rows. -/
def Consumer.changing (apply : Row → Engine → Engine × Except Failure Unit) : Consumer Nat :=
  fun n row e =>
    match apply row e with
    | (e, .ok _) => (e, n + 1, .more)
    | (e, .error f) => (e, n, .fail f)

section Change

variable {kind : OperatorKind} {apply : Row → Engine → Engine × Except Failure Unit}

/-- What an open change makes of a pass over its input. -/
theorem change_run {place : ChangePlace σ} {e : Engine} {acc : β} {pass : Pass σ Nat}
    (h : input.run place.input e 0 (Consumer.changing apply) = pass) (ho : place.opened = true)
    (hd : place.done = false) :
    (Source.change kind apply input).run place e acc k = match pass.verdict with
      | .failed f => ⟨{ place with input := pass.place }, pass.engine, acc, .failed f⟩
      | _ =>
        match k acc (Source.countRow pass.collected) pass.engine with
        | (e, acc, signal) =>
          ⟨{ place with input := pass.place, done := true }, e, acc, signal.verdict⟩ := by
  subst h
  unfold Source.change
  simp only [ho, hd, if_true, Bool.false_eq_true, if_false]
  rfl

theorem takes_changing
    (happly : ∀ {row : Row} {e e' : Engine} {r : Except Failure Unit}, row.fits schema → S e →
      apply row e = (e', r) → S e' ∧ Within Fails r) :
    (Consumer.changing apply).Takes schema S Fails fun _ => True := by
  intro n row e hrow _ he e' n' signal hk
  rcases ha : apply row e with ⟨e₁, r⟩
  obtain ⟨he₁, hfail⟩ := happly hrow he ha
  rw [Consumer.changing, ha] at hk
  cases r with
  | ok u =>
    cases hk
    exact ⟨he₁, trivial, trivial⟩
  | error f =>
    cases hk
    exact ⟨he₁, trivial, hfail⟩

/-- **A change is typed** if applying it to a row of its input keeps what is known of the engine. -/
theorem typed_change (h : input.Typed schema S Fails stands)
    (happly : ∀ {row : Row} {e e' : Engine} {r : Except Failure Unit}, row.fits schema → S e →
      apply row e = (e', r) → S e' ∧ Within Fails r)
    (hclosed : Fails (.notOpened kind)) :
    (Source.change kind apply input).Typed Plan.countSchema S Fails
      (fun place => stands place.input) where
  fresh := h.fresh
  close hplace := h.close hplace
  start {place e} hplace he := by
    have hstart := h.start hplace he
    simp only [Source.change]
    rcases hi : input.start place.input e with ⟨inner, e', r⟩
    rw [hi] at hstart
    cases r with
    | error f => exact ⟨hstart.place, hstart.engine, hstart.failure⟩
    | ok u => exact ⟨hstart.place, hstart.engine, trivial⟩
  rewind {place e} hplace he := by
    have hrewind := h.rewind hplace he
    simp only [Source.change]
    rcases hi : input.rewind place.input e with ⟨inner, e', r⟩
    rw [hi] at hrewind
    cases r with
    | error f => exact ⟨hrewind.place, hrewind.engine, hrewind.failure⟩
    | ok u => exact ⟨hrewind.place, hrewind.engine, trivial⟩
  run {β k Keeps} hk {place e acc} hplace he hacc := by
    cases ho : place.opened with
    | false =>
      simp only [Source.change, ho, Bool.false_eq_true, if_false]
      exact ⟨hplace, he, hacc, hclosed⟩
    | true =>
      cases hd : place.done with
      | true =>
        simp only [Source.change, ho, hd, if_true]
        exact ⟨hplace, he, hacc, trivial⟩
      | false =>
        have hrows : (Consumer.changing apply).Takes schema S Fails fun _ => True :=
          takes_changing happly
        have hrun : (input.run place.input e 0 (Consumer.changing apply)).Sound stands S Fails
            fun _ => True := h.run hrows hplace he trivial
        rcases hpass : input.run place.input e 0 (Consumer.changing apply)
          with ⟨inner, e', n, verdict⟩
        rw [hpass] at hrun
        rcases hk' : k acc (Source.countRow n) e' with ⟨e₂, acc₂, signal⟩
        obtain ⟨he₂, hacc₂, hfail⟩ := hk (Row.fits_countRow n) hacc hrun.engine hk'
        rw [change_run hpass ho hd]
        cases verdict with
        | failed f => exact ⟨hrun.place, hrun.engine, hacc, hrun.verdict⟩
        | stopped | ended =>
          simp only [hk']
          exact ⟨hrun.place, he₂, hacc₂, hfail.verdict⟩

end Change

end Inputs

end Typed

end RowStore
