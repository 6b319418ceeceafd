import RowStore.Proofs.Engine.Refusing
import RowStore.Proofs.Query.Closing
import RowStore.Proofs.Query.Typing

/-!
# Plans do not go wrong

The functions that put plans together check columns and types once.  This is enough: however a plan
is asked, in whatever order and whatever others do between two calls, it hands out rows of its
schema only, it never meets a value of another type or a row that is too short, and it never puts a
row into a table that the row does not match.  What may fail is in one table (`Plan.MayFail`).

A call on a plan does nothing to the store but requests and changes (`Engine.Onward`), and the
catalog stays as it is; so what is known of the store when a call begins is enough for all that
happens in it.  Main statement: `Plan.never_wrong`.
-/

namespace RowStore

namespace Plan

/-! ## 1. Plans -/

/-- **The plans that can be put together** over a catalog, of lists of rows that match their
schemas. -/
inductive Built (c : Catalog) : Plan → Prop
  | rows {schema : Schema} {list : List Row} : (∀ row ∈ list, row.fits schema) →
      Built c (.rows schema list)
  | scan {tx : Tx} {id : TableId} {label : String} {p : Plan} :
      scanned c tx id label = .ok p → Built c p
  | filter {condition : Condition} {input p : Plan} : Built c input →
      filtered condition input = .ok p → Built c p
  | join {condition : JoinCondition} {left right p : Plan} : Built c left → Built c right →
      joined condition left right = .ok p → Built c p
  | aggregate {a : Aggregation} {input p : Plan} : Built c input →
      aggregated a input = .ok p → Built c p
  | insert {tx : Tx} {id : TableId} {input p : Plan} : Built c input →
      inserted c tx id input = .ok p → Built c p
  | delete {tx : Tx} {input : Plan} : Built c input → Built c (.delete tx input)

/-- The cached pages of the tables that a plan scans have the tables' schemas. -/
def Carried (e : Engine) : Plan → Prop
  | rows .. => True
  | scan _ table _ => e.Carries table.id table.schema
  | filter _ input | aggregate _ input | insert _ _ input | delete _ input => input.Carried e
  | join _ left right => left.Carried e ∧ right.Carried e

/-- The kinds of a plan's operators. -/
def kinds : Plan → List OperatorKind
  | rows .. => [.rows]
  | scan .. => [.scan]
  | filter _ input => .filter :: input.kinds
  | join _ left right => .join :: (left.kinds ++ right.kinds)
  | aggregate _ input => .aggregate :: input.kinds
  | insert _ _ input => .insert :: input.kinds
  | delete _ input => .delete :: input.kinds

/-- The tables that a plan puts rows into. -/
def targets : Plan → List TableId
  | rows .. | scan .. => []
  | filter _ input | aggregate _ input | delete _ input => input.targets
  | join _ left right => left.targets ++ right.targets
  | insert _ id input => id :: input.targets

/-- **How a call on a plan may fail**: an operator is not open, a sum gets too large, requests are
refused, a file cannot be made longer, a row that is to be deleted stands nowhere.  A page that rows
are put on refuses them only if it had another schema than its table when the call began. -/
inductive MayFail (p : Plan) (e : Engine) : Failure → Prop
  | notOpened {kind : OperatorKind} : kind ∈ p.kinds → MayFail p e (.notOpened kind)
  | sumOverflow : .aggregate ∈ p.kinds → MayFail p e .sumOverflow
  | scan {f : Failure} : .scan ∈ p.kinds → f.OfRequest → MayFail p e f
  | insert {f : Failure} : .insert ∈ p.kinds → f.OfInsert → MayFail p e f
  | delete {f : Failure} : .delete ∈ p.kinds → f.OfDelete → MayFail p e f
  | misfit {table : TableFile} (row : Row) (schema : Schema) : table.id ∈ p.targets →
      e.catalog.table? table.id = some table → ¬ e.Carries table.id table.schema →
      MayFail p e (.misfit row schema)

section Failing

variable {p input : Plan} {e : Engine} {f : Failure}

/-- None of these stops in the middle. -/
theorem MayFail.defined (h : p.MayFail e f) : f.isUndefined = false := by
  cases h with
  | scan _ hf => exact hf.defined
  | insert _ hf => exact hf.defined
  | delete _ hf => exact hf.defined
  | notOpened | sumOverflow | misfit => rfl

/-- A plan may fail as its inputs may. -/
theorem MayFail.of_input (h : input.MayFail e f) (hk : input.kinds ⊆ p.kinds)
    (ht : input.targets ⊆ p.targets) : p.MayFail e f := by
  cases h with
  | notOpened hm => exact .notOpened (hk hm)
  | sumOverflow hm => exact .sumOverflow (hk hm)
  | scan hm hf => exact .scan (hk hm) hf
  | insert hm hf => exact .insert (hk hm) hf
  | delete hm hf => exact .delete (hk hm) hf
  | misfit row schema hm htable hc => exact .misfit row schema (ht hm) htable hc

end Failing

/-- **The places in a plan** where all rows that are left, and all rows that are being matched, are
of the right schemas. -/
def Stands : (p : Plan) → p.Place → Prop
  | rows schema _ => RowsFit schema
  | scan _ table _ => ScanFits table.schema
  | filter _ input => fun place => input.Stands place.input
  | join _ left right => JoinPlace.Sound left.schema left.Stands right.Stands
  | aggregate a input => AggregatePlace.Sound a input.schema input.Stands
  | insert _ _ input => fun place => input.Stands place.input
  | delete _ input => fun place => input.Stands place.input

/-! ## 2. What was checked -/

section Checked

variable {c : Catalog} {tx : Tx} {id : TableId} {label : String} {input left right p : Plan}

theorem eq_of_scanned (h : scanned c tx id label = .ok p) :
    ∃ table, c.table? id = some table ∧ p = .scan tx table label := by
  unfold scanned at h
  split at h
  · cases h
  · rename_i table hl
    cases h
    exact ⟨table, Engine.table?_of_lookup hl, rfl⟩

theorem eq_of_filtered {condition : Condition} (h : filtered condition input = .ok p) :
    p = .filter condition input := by
  unfold filtered at h
  split at h
  · cases h
  · split at h
    · exact (Except.ok.inj h).symm
    · cases h

theorem eq_of_joined {condition : JoinCondition} (h : joined condition left right = .ok p) :
    p = .join condition left right := by
  unfold joined at h
  split at h
  · split at h
    · exact (Except.ok.inj h).symm
    · cases h
  · cases h

/-- A grouping column that was checked has groups. -/
theorem groups_of_checkGroup {schema : Schema} {group : Option Nat} {u : Unit}
    (h : checkGroup schema group = .ok u) :
    ∀ i, group = some i → ∃ column, schema.column? i = some column ∧ column.type ≠ .bool := by
  rintro i rfl
  unfold checkGroup at h
  simp only at h
  split at h
  · cases h
  · rename_i column hcolumn
    split at h
    · cases h
    · rename_i hbool
      exact ⟨column, hcolumn, hbool⟩

theorem eq_of_aggregated {a : Aggregation} (h : aggregated a input = .ok p) :
    (∃ column, a.Suits input.schema column) ∧ p = .aggregate a input := by
  unfold aggregated at h
  split at h
  · cases h
  · rename_i column hcolumn
    split at h
    · cases h
    · rename_i hcomputes
      split at h
      · cases h
      · rename_i u hgroup
        refine ⟨⟨column, hcolumn, ?_, groups_of_checkGroup hgroup⟩, (Except.ok.inj h).symm⟩
        by_contra hn
        obtain ⟨hcount, htype⟩ := not_or.mp hn
        exact hcomputes ⟨htype, hcount⟩

theorem eq_of_inserted (h : inserted c tx id input = .ok p) :
    ∃ table, c.table? id = some table ∧ input.schema.types = table.schema.types
      ∧ p = .insert tx id input := by
  unfold inserted at h
  split at h
  · cases h
  · rename_i table hl
    split at h
    · rename_i htypes
      exact ⟨table, Engine.table?_of_lookup hl, htypes, (Except.ok.inj h).symm⟩
    · cases h

/-- What is known of the pages of all registered tables is known of those that are scanned. -/
theorem Built.carried {e e' : Engine} (h : p.Built c) (hf : e.Furnished) (hcat : e.catalog = c)
    (hkeeps : ∀ {id : TableId} {table : TableFile}, e.catalog.table? id = some table →
      e.Carries id table.schema → e'.Carries id table.schema)
    (hc : p.Carried e) : p.Carried e' := by
  induction h with
  | rows => trivial
  | scan hp =>
    obtain ⟨table, ht, rfl⟩ := eq_of_scanned hp
    subst hcat
    obtain rfl := hf.keyed ht
    exact hkeeps ht hc
  | filter _ hp ih =>
    cases eq_of_filtered hp
    exact ih hc
  | join _ _ hp ihl ihr =>
    cases eq_of_joined hp
    exact ⟨ihl hc.1, ihr hc.2⟩
  | aggregate _ hp ih =>
    obtain ⟨-, rfl⟩ := eq_of_aggregated hp
    exact ih hc
  | insert _ hp ih =>
    obtain ⟨-, -, -, rfl⟩ := eq_of_inserted hp
    exact ih hc
  | delete _ ih => exact ih hc

end Checked

/-! ## 3. Plans are typed -/

section Typed

variable {e₀ : Engine} {P : Failure → Prop} {tx : Tx} {table : TableFile} {id : TableId}

/-- **The pages of a registered table** whose cached pages have its schema. -/
theorem serves_onward (tx : Tx) (ht : e₀.catalog.table? table.id = some table)
    (hc : e₀.Carries table.id table.schema) (hP : ∀ f, f.OfRequest → P f) :
    table.Serves tx (Engine.Onward e₀) (e₀.Refuses P) where
  count hon h := hon.refuses (Engine.countPages_refuses h)
  denied {e e' i f} hon h := by
    have hrefuses := Engine.fetch_refuses hon.furnished (hon.table? ht) h
    exact ⟨hon.fetches (Engine.fetch_fetches h), (hon.refuses hrefuses).mono (hP f)⟩
  fetched {e e' i frame} hon h := by
    have hon' := hon.fetches (Engine.fetch_fetches h)
    have hcached := (Engine.fetch_ok h).cached
    have hschema : frame.page.schema = table.schema := hon'.carries ht hc hcached rfl
    refine ⟨hon', fun row hm => ?_, ?_⟩
    · exact hschema ▸ (hon'.furnished.formed hcached).fits_of_mem hm
    · cases hu : frame.use with
      | ok page => trivial
      | error f => exact hon'.refuses (Engine.use_refuses hcached hu)

/-- **Inserting a row of the right types** does what inserts do, and fails as they fail. -/
theorem insert_onward (ht : e₀.catalog.table? id = some table) {row : Row}
    (hrow : row.fits table.schema)
    (hP : ∀ f, e₀.InsertFails table f → P f) {e e' : Engine} {r : Except Failure Unit}
    (hon : Engine.Onward e₀ e)
    (h : (match e.insert tx id row.unplaced with
      | (e, _, .ok _) => (e, .ok ())
      | (e, _, .error f) => (e, .error f)) = (e', r)) :
    Engine.Onward e₀ e' ∧ Within (e₀.Refuses P) r := by
  rcases hi : e.insert tx id row.unplaced with ⟨e₁, stored, result⟩
  have hon₁ := hon.worked (Engine.insert_worked hon.orderly.proper hi)
  rw [hi] at h
  cases result with
  | ok pids =>
    cases h
    exact ⟨hon₁, trivial⟩
  | error f =>
    -- the row matches the table as it was checked, since the catalog is the one it was checked in
    cases h
    obtain rfl := hon.base.keyed ht
    have hunplaced : row.unplaced.fits table.schema := hrow
    have hrefuses := Engine.insert_refuses hon.furnished (hon.table? ht) hunplaced hi
    exact ⟨hon₁, (hon.insertFails ht hrefuses).mono (hP f)⟩

/-- **Deleting a row** does what deletes do, and fails as they fail. -/
theorem delete_onward (hP : ∀ f, f.OfDelete → P f) {row : Row} {e e' : Engine}
    {r : Except Failure Unit} (hon : Engine.Onward e₀ e)
    (h : (match e.delete tx row with
      | (e, .ok _) => (e, .ok ())
      | (e, .error f) => (e, .error f)) = (e', r)) :
    Engine.Onward e₀ e' ∧ Within (e₀.Refuses P) r := by
  rcases hd : e.delete tx row with ⟨e₁, result⟩
  have hon₁ := hon.worked (Engine.delete_worked hon.orderly.proper hd (.number 0))
  rw [hd] at h
  cases result with
  | ok pids =>
    cases h
    exact ⟨hon₁, trivial⟩
  | error f =>
    cases h
    exact ⟨hon₁, (hon.refuses (Engine.delete_refuses hon.furnished hd)).mono (hP f)⟩

variable {p : Plan}

/-- **Every plan that can be put together is typed**, from any moment on at which its store can be
worked with and the tables that it scans have pages of their schemas. -/
theorem Built.typed (h : p.Built e₀.catalog) (hf : e₀.Furnished) (hc : p.Carried e₀)
    (hP : ∀ f, p.MayFail e₀ f → P f) :
    p.source.Typed p.schema (Engine.Onward e₀) (e₀.Refuses P) p.Stands := by
  -- the failures stay a variable: an input is typed with the failures of the plan that it is in
  induction h with
  | rows hrows => exact typed_rows hrows (Or.inl (hP _ (.notOpened List.mem_cons_self)))
  | @scan tx id label p hp =>
    obtain ⟨table, ht, rfl⟩ := eq_of_scanned hp
    obtain rfl := hf.keyed ht
    have hserves := serves_onward tx ht hc fun f hr => hP f (.scan List.mem_cons_self hr)
    exact typed_scan label hserves (Or.inl (hP _ (.notOpened List.mem_cons_self)))
  | @filter condition input p _ hp ih =>
    cases eq_of_filtered hp
    have hinput := ih hc fun f hm => hP f (hm.of_input (List.subset_cons_self _ _) (fun _ h => h))
    exact typed_filter condition hinput (Or.inl (hP _ (.notOpened List.mem_cons_self)))
  | @join condition left right p _ _ hp ihl ihr =>
    cases eq_of_joined hp
    have hleft := ihl hc.1 fun f hm => hP f (hm.of_input
      (List.subset_cons_of_subset _ (List.subset_append_left _ _)) (List.subset_append_left _ _))
    have hright := ihr hc.2 fun f hm => hP f (hm.of_input
      (List.subset_cons_of_subset _ (List.subset_append_right _ _)) (List.subset_append_right _ _))
    exact typed_join condition hleft hright (Or.inl (hP _ (.notOpened List.mem_cons_self)))
  | @aggregate a input p _ hp ih =>
    obtain ⟨⟨column, hsuits⟩, rfl⟩ := eq_of_aggregated hp
    have hinput := ih hc fun f hm => hP f (hm.of_input (List.subset_cons_self _ _) (fun _ h => h))
    exact typed_aggregate hinput hsuits (Or.inl (hP _ (.sumOverflow List.mem_cons_self)))
      (Or.inl (hP _ (.notOpened List.mem_cons_self)))
  | @insert tx id input p _ hp ih =>
    obtain ⟨table, ht, htypes, rfl⟩ := eq_of_inserted hp
    obtain rfl := hf.keyed ht
    have hinput := ih hc fun f hm => hP f (hm.of_input (List.subset_cons_self _ _)
      (List.subset_cons_self _ _))
    have hfails : ∀ f, e₀.InsertFails table f → P f := by
      intro f hi
      cases hi with
      | known hi => exact hP f (.insert List.mem_cons_self hi)
      | misfit row schema hn => exact hP _ (.misfit row schema List.mem_cons_self ht hn)
    refine typed_change hinput (fun hrow hon ha => ?_)
      (Or.inl (hP _ (.notOpened List.mem_cons_self)))
    exact insert_onward ht (Row.fits_of_types htypes hrow) hfails hon ha
  | @delete tx input _ ih =>
    have hinput := ih hc fun f hm => hP f (hm.of_input (List.subset_cons_self _ _) (fun _ h => h))
    refine typed_change hinput (fun _ hon ha => ?_)
      (Or.inl (hP _ (.notOpened List.mem_cons_self)))
    exact delete_onward (fun f hd => hP f (.delete List.mem_cons_self hd)) hon ha

end Typed

/-! ## 4. Calls -/

section Calls

variable {p : Plan} {place place' : p.Place} {e e' : Engine} {c : PlanCall}
  {reply : Except Failure (Option Row)}

/-- **What a call on a typed plan does.** -/
theorem call_typed {schema : Schema} {S : Engine → Prop} {Fails : Failure → Prop}
    {stands : p.Place → Prop} (h : p.source.Typed schema S Fails stands) (hplace : stands place)
    (he : S e) (hc : p.call place e c = (place', e', reply)) :
    stands place' ∧ S e' ∧ (∀ row, reply = .ok (some row) → row.fits schema)
      ∧ Within Fails reply := by
  have hrestarted : ∀ {out : p.Place × Engine × Except Failure Unit}, Restarted stands S Fails out →
      (out.1, out.2.1, out.2.2.map fun _ => (none : Option Row)) = (place', e', reply) →
      stands place' ∧ S e' ∧ (∀ row, reply = .ok (some row) → row.fits schema)
        ∧ Within Fails reply := by
    rintro ⟨inner, e₁, r⟩ hout heq
    cases heq
    cases r with
    | ok u => exact ⟨hout.place, hout.engine, nofun, trivial⟩
    | error f => exact ⟨hout.place, hout.engine, nofun, hout.failure⟩
  cases c with
  | start => exact hrestarted (h.start hplace he) hc
  | rewind => exact hrestarted (h.rewind hplace he) hc
  | next => exact h.next hplace he hc
  | close =>
    cases hc
    exact ⟨h.close hplace, he, nofun, trivial⟩

/-- **A plan that can be asked**: its store can be worked with, it was put together over the
catalog, the pages of the tables that it scans have the tables' schemas, and it stands where rows are
of the right schemas. -/
structure Ready (p : Plan) (e : Engine) (place : p.Place) : Prop where
  furnished : e.Furnished
  built : p.Built e.catalog
  carried : p.Carried e
  stands : p.Stands place

/-- A plan that can be asked can be asked again when others have used the store, as long as the
catalog is as it was. -/
theorem Ready.inherits (h : p.Ready e place) (hi : e.Inherits e') (hf : e'.Furnished) :
    p.Ready e' place := by
  have hkeeps : ∀ {id : TableId} {table : TableFile}, e.catalog.table? id = some table →
      e.Carries id table.schema → e'.Carries id table.schema := by
    intro id table ht hc
    exact hi.carries (fun found hfound => by rw [ht] at hfound; cases hfound; rfl) hc
  exact ⟨hf, hi.catalog_eq.symm ▸ h.built, h.built.carried h.furnished rfl hkeeps h.carried,
    h.stands⟩

/-- **A call on a plan that can be asked.** -/
theorem Ready.call (h : p.Ready e place) (hc : p.call place e c = (place', e', reply)) :
    p.Ready e' place' ∧ Engine.Onward e e' ∧ (∀ row, reply = .ok (some row) → row.fits p.schema)
      ∧ Within (e.Refuses (p.MayFail e)) reply := by
  have htyped := h.built.typed h.furnished h.carried fun f hf => hf
  obtain ⟨hplace, hon, hrow, hfail⟩ := call_typed htyped h.stands (.refl h.furnished) hc
  have hready := h.inherits hon.inherits hon.furnished
  exact ⟨⟨hready.furnished, hready.built, hready.carried, hplace⟩, hon, hrow, hfail⟩

end Calls

/-- **A plan in use**: it is put together in a state that was reached by calls of a kind, over tables
whose cached pages have their schemas; then it is asked for whatever and whenever, and others make
calls of that kind in between, but leave the catalog as it is. -/
inductive Session (allowed : Engine → Call → Prop) (start : Engine) (p : Plan) :
    Engine → p.Place → Prop
  | built {e : Engine} {log : List Event} : Run allowed start e log → p.Built e.catalog →
      p.Carried e → Session allowed start p e p.source.fresh
  | other {e e' : Engine} {place : p.Place} {events : List Event} (c : Call) :
      Session allowed start p e place → allowed e c → e.call c = (e', events) →
      e'.catalog = e.catalog → Session allowed start p e' place
  | ask {e e' : Engine} {place place' : p.Place} {reply : Except Failure (Option Row)}
      (c : PlanCall) : Session allowed start p e place →
      p.call place e c = (place', e', reply) → Session allowed start p e' place'

section Sessions

variable {p : Plan} {place place' : p.Place} {e e' start : Engine} {c : PlanCall}
  {reply : Except Failure (Option Row)} {config : Config} {disk : Disk}

/-- A plan that is in use among calls of a kind is so among more. -/
theorem Session.mono {allowed more : Engine → Call → Prop}
    (hle : ∀ {e : Engine} {c : Call}, allowed e c → more e c)
    (h : p.Session allowed start e place) : p.Session more start e place := by
  induction h with
  | built hrun hb hc => exact .built (hrun.mono hle) hb hc
  | other c _ ha he hcat ih => exact .other c ih (hle ha) he hcat
  | ask c _ hc ih => exact .ask c ih hc

/-- **A plan in use can be asked**, whatever it was asked before. -/
theorem Session.ready (hf : start.Furnished) (h : p.Session (fun _ c => c.Opened) start e place) :
    p.Ready e place := by
  induction h with
  | built hrun hb hc =>
    have hfurnished := Run.furnished hf hrun
    have htyped := hb.typed hfurnished hc fun f hf => hf
    exact ⟨hfurnished, hb, hc, htyped.fresh⟩
  | other c _ hallowed he hcat ih =>
    have hinherits := Engine.inherits_of_same ih.furnished.orderly he hcat
    exact ih.inherits hinherits (ih.furnished.call hallowed he)
  | ask c _ hc ih => exact (ih.call hc).1

/-- Tables whose pages have the size that the store knows have room for rows. -/
theorem opened_of_oneSize {e : Engine} {c : Call} (h : c.OneSize e) : c.Opened := by
  cases c with
  | register table name => exact h.roomy
  | _ => trivial

/-- **Nothing is spoiled** where a plan is in use over sane files, as long as all tables have pages
of one size. -/
theorem Session.sane (hd : disk.Sane)
    (h : p.Session (fun e c => c.OneSize e) { config := config, disk := disk } e place) :
    e.Uniform ∧ e.Sane := by
  induction h with
  | built hrun _ _ =>
    exact ⟨Run.uniform (Engine.orderly_new config disk) (Engine.uniform_new config disk) hrun,
      Run.sane hrun hd⟩
  | other c hs hallowed he _ ih =>
    have hready := (hs.mono opened_of_oneSize).ready (Engine.furnished_new config disk)
    have ho := hready.furnished.orderly
    exact ⟨ih.1.call ho hallowed he, ih.2.call ho ih.1 he⟩
  | ask c hs hc ih =>
    -- a call on the plan takes steps of calls on the store, and they know one size of pages
    have hready := (hs.mono opened_of_oneSize).ready (Engine.furnished_new config disk)
    obtain ⟨-, hon, -⟩ := hready.call hc
    exact ⟨hon.moves.uniform hready.furnished.orderly ih.1, hon.sane ih.2⟩

/-- **Plans do not go wrong**: for every plan that can be put together, whatever is asked of it and
in whatever order, while others use the store in between,

* every row that it hands out matches its schema;
* it fails in no other ways than those that the table names, none of which stops in the middle; or
  something was spoiled already when the call began, and the call stops there;
* it spoils nothing itself.

In a store over sane files, whose tables have pages of one size, nothing is ever spoiled, so that the
table names all failures there are. -/
theorem never_wrong
    (h : p.Session (fun _ c => c.Opened) { config := config, disk := disk } e place)
    (hc : p.call place e c = (place', e', reply)) :
    (∀ row, reply = .ok (some row) → row.fits p.schema)
    ∧ (∀ f, reply = .error f →
      p.MayFail e f ∧ f.isUndefined = false ∨ f.OfSpoiled ∧ ¬ e.Sane)
    ∧ (e.Sane → e'.Sane)
    ∧ (disk.Sane → p.Session (fun e c => c.OneSize e) { config := config, disk := disk } e place →
      ∀ f, reply = .error f → p.MayFail e f ∧ f.isUndefined = false) := by
  have hready := h.ready (Engine.furnished_new config disk)
  obtain ⟨-, hon, hrow, hfail⟩ := hready.call hc
  have hfails : ∀ f, reply = .error f →
      p.MayFail e f ∧ f.isUndefined = false ∨ f.OfSpoiled ∧ ¬ e.Sane := by
    rintro f rfl
    rcases hfail with hf | hspoiled
    · exact Or.inl ⟨hf, hf.defined⟩
    · exact Or.inr hspoiled
  refine ⟨hrow, hfails, hon.sane, fun hd hsession f hf => ?_⟩
  have hsane := (hsession.sane hd).2
  exact (hfails f hf).resolve_right fun hn => hn.2 hsane

end Sessions

end Plan

namespace Sample

/-- The integers above four in the table. -/
def large : Plan := .filter ⟨0, .gt, .int 4⟩ (.scan ⟨3⟩ table "t")

/-- Their sum. -/
def total : Plan := .aggregate ⟨.sum, 0, none⟩ large

theorem built_total : total.Built committed.catalog := by
  have hscan : Plan.scanned committed.catalog ⟨3⟩ table.id "t" = .ok (.scan ⟨3⟩ table "t") := by
    have ht : committed.catalog.table? table.id = some table := by decide +kernel
    rw [Plan.scanned, Catalog.lookup, ht]
  have hlarge : Plan.filtered ⟨0, .gt, .int 4⟩ (.scan ⟨3⟩ table "t") = .ok large := by rfl
  have htotal : Plan.aggregated ⟨.sum, 0, none⟩ large = .ok total := by rfl
  exact .aggregate (.filter (.scan hscan) hlarge) htotal

theorem carried_total : total.Carried committed := by
  intro pid frame hf _
  have hframes : ∀ entry ∈ committed.cache.frames, entry.2.page.schema = schema := by
    decide +kernel
  exact hframes (pid, frame) (Assoc.mem_of_find? hf)

end Sample

/-- A sum over the table with its one row hands out the one integer, which matches its schema. -/
theorem Plan.never_wrong_total : ∃ place place' e e',
    Sample.total.Session (fun _ c => c.Opened) Sample.start e place
      ∧ Sample.total.call place e .next = (place', e', .ok (some ⟨[.int 5], none⟩))
      ∧ (⟨[.int 5], none⟩ : Row).fits Sample.total.schema := by
  have hrun : Run (fun _ c => c.Opened) Sample.start Sample.committed _ :=
    Sample.run_committed.mono fun h => Plan.opened_of_oneSize h.oneSize
  have hbuilt : Sample.total.Session (fun _ c => c.Opened) Sample.start Sample.committed _ :=
    .built hrun Sample.built_total Sample.carried_total
  rcases hstart : Sample.total.call Sample.total.source.fresh Sample.committed .start
    with ⟨place, e, started⟩
  have hsession := hbuilt.ask .start hstart
  rcases hnext : Sample.total.call place e .next with ⟨place', e', reply⟩
  have hreply : reply.toOption = some (some ⟨[.int 5], none⟩) := by
    have h : ((Sample.total.call (Sample.total.call Sample.total.source.fresh Sample.committed
        .start).1 (Sample.total.call Sample.total.source.fresh Sample.committed .start).2.1
        .next).2.2).toOption = some (some ⟨[.int 5], none⟩) := by decide +kernel
    rw [hstart] at h
    exact (congrArg (fun out => out.2.2.toOption) hnext).symm.trans h
  cases reply with
  | error f => cases hreply
  | ok row =>
    cases hreply
    exact ⟨place, place', e, e', hsession, hnext, (Plan.never_wrong hsession hnext).1 _ rfl⟩

end RowStore
