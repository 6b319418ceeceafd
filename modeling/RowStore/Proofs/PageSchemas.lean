import RowStore.Catalog.Lemmas
import RowStore.Proofs.Atomicity
import RowStore.Proofs.Query.Typing
import RowStore.Proofs.Reachable

/-!
# The schemas of cached pages

A page gets the schema of its table when it is read, and keeps it for as long as it is cached; the
catalog may replace the table meanwhile, and nobody tells the cache.  So a page that is handed out
has the schema of its table if none was ever replaced under a cached page of another schema, and
then a scan of the table hands out rows of its schema only.

What a call does to schemas is one statement for all calls that leave the catalog alone
(`Engine.Inherits`).  Main statement: `schemas_agree`; what happens otherwise is `schemas_disagree`.
-/

namespace RowStore

/-- The rows of a page match its schema. -/
theorem Page.WellFormed.fits_of_mem {p : Page} {row : Row} (h : p.WellFormed)
    (hm : row ∈ p.rows) : row.fits p.schema := by
  obtain ⟨slot, hslot⟩ := (Page.mem_rows_iff row).mp hm
  exact (h.row_of_row? hslot).1

namespace Engine

variable {e e' e₁ : Engine} {tx : Tx} {pid : PageId} {frame : Frame} {table : TableFile}
  {id : TableId} {schema : Schema} {events : List Event}

/-! ## 1. Where cached pages come from -/

/-- **Every cached page was cached before**, with the same schema, or has the schema of its table.
-/
structure Inherits (e e' : Engine) : Prop where
  catalog_eq : e'.catalog = e.catalog
  page : ∀ {pid : PageId} {frame : Frame}, e'.cache.find? pid = some frame →
    (∃ old, e.cache.find? pid = some old ∧ frame.page.schema = old.page.schema
      ∧ (old.page.WellFormed → frame.page.WellFormed))
    ∨ ∃ table, e.catalog.table? pid.table = some table ∧ frame.page.schema = table.schema
      ∧ frame.page.WellFormed

/-- No page is cached that was not cached just so. -/
theorem inherits_of_cached (hcat : e'.catalog = e.catalog)
    (h : ∀ {pid : PageId} {frame : Frame}, e'.cache.find? pid = some frame →
      ∃ old, e.cache.find? pid = some old ∧ old.page = frame.page) : Inherits e e' where
  catalog_eq := hcat
  page hf := by
    obtain ⟨old, hold, he⟩ := h hf
    exact Or.inl ⟨old, hold, by rw [he], fun hw => he ▸ hw⟩

theorem Inherits.refl (e : Engine) : Inherits e e :=
  inherits_of_cached rfl fun hf => ⟨_, hf, rfl⟩

theorem Inherits.trans (h : Inherits e e₁) (h' : Inherits e₁ e') : Inherits e e' where
  catalog_eq := h'.catalog_eq.trans h.catalog_eq
  page hf := by
    rcases h'.page hf with ⟨old, hold, hs, hw⟩ | ⟨table, ht, hs, hw⟩
    · rcases h.page hold with ⟨older, holder, hs', hw'⟩ | ⟨table, ht, hs', hw'⟩
      · exact Or.inl ⟨older, holder, hs.trans hs', fun hwf => hw (hw' hwf)⟩
      · exact Or.inr ⟨table, ht, hs.trans hs', hw hw'⟩
    · exact Or.inr ⟨table, h.catalog_eq ▸ ht, hs, hw⟩

/-- A page that was read has the schema of its table. -/
theorem Recached.inherits (h : Recached e e') : Inherits e e' where
  catalog_eq := h.catalog_eq
  page {pid frame} hf := by
    rcases h.find? hf with hold | hread
    · exact Or.inl ⟨frame, hold, rfl, id⟩
    · obtain ⟨table, ht, hr⟩ := readPage_eq_ok_iff.mp hread
      have hbytes := Page.of_ofBytes hr.ofBytes
      exact Or.inr ⟨table, ht, hbytes.schema_eq, hbytes.wellFormed⟩


/-- **Every step of a call that uses pages** keeps the schema of each page. -/
theorem Move.inherits (h : Move e e') (hp : e.cache.Proper) : Inherits e e' := by
  cases h with
  | fetch hf => exact (hf.recached hp).inherits
  | append _ _ _ => exact inherits_of_cached rfl fun hf => ⟨_, hf, rfl⟩
  | @change _ tx pid frame page rid values hh hc =>
    -- the page after the change stands where the page before it stood
    refine ⟨rfl, fun {other found} hf => ?_⟩
    rw [find?_changePage] at hf
    split at hf
    · rename_i he
      cases hf
      subst he
      refine Or.inl ⟨frame, hh.cached, hc.same.2.schema_eq, fun hw => ?_⟩
      exact Page.WellFormed.markDirty (hc.cells hw).1 tx
    · exact Or.inl ⟨found, hf, rfl, id⟩
  | settle hs =>
    cases hs with
    | @write pid frame table disk hcached ht hw =>
      refine ⟨rfl, fun {other found} hf => ?_⟩
      simp only [updatePage, Cache.find?_update] at hf
      split at hf
      · rename_i he
        obtain ⟨old, hold, rfl⟩ := Option.map_eq_some_iff.mp hf
        subst he
        obtain rfl := Option.some.inj (hold.symm.trans hcached)
        exact Or.inl ⟨old, hold, rfl, fun hw => hw.clean⟩
      · exact Or.inl ⟨found, hf, rfl, id⟩
    | revert hr _ => exact (revertPage_recached hr).inherits
    | halt hh => exact inherits_of_cached hh.catalog_eq hh.find?
  | releaseAll tx => exact inherits_of_cached rfl fun hf => ⟨_, hf, rfl⟩

theorem Moves.inherits (h : Moves e e') (ho : Orderly e) : Inherits e e' := by
  induction h with
  | refl => exact .refl e
  | tail hr hs ih => exact ih.trans (hs.inherits (Moves.orderly hr ho).proper)

end Engine

/-- The calls that leave the catalog alone. -/
def Call.KeepsCatalog : Call → Prop
  | createTable .. | register .. | unregister .. | forgetTables => False
  | _ => True

namespace Engine

variable {e e' e₁ : Engine} {table : TableFile} {id : TableId} {schema : Schema}
  {events : List Event}

/-- **A call that leaves the catalog alone** keeps the schema of each page. -/
theorem inherits_of_call {c : Call} (ho : Orderly e) (hc : c.KeepsCatalog)
    (h : e.call c = (e', events)) : Inherits e e' := by
  by_cases hp : c.UsesPages
  · exact ((did_of_call ho.proper hp h).moves ho).inherits ho
  cases c with
  | removePage pid =>
    cases h
    rcases e.removePage_cases pid with he | he <;> rw [he]
    · exact .refl e
    · exact inherits_of_cached rfl fun hf => ⟨_, find?_of_remove hf, rfl⟩
  | clear =>
    cases h
    rcases e.clear_cases with he | he <;> rw [he]
    · exact .refl e
    · exact inherits_of_cached rfl fun hf => by cases hf
  | releasePage tx pid =>
    cases h
    exact inherits_of_cached rfl fun hf => ⟨_, hf, rfl⟩
  | createTable | register | unregister | forgetTables => exact hc.elim
  | _ => exact absurd trivial hp

/-! ## 2. Cached pages and their tables -/

/-- Every cached page is well formed. -/
def Formed (e : Engine) : Prop :=
  ∀ ⦃pid : PageId⦄ ⦃frame : Frame⦄, e.cache.find? pid = some frame → frame.page.WellFormed

/-- **The cached pages of a table have this schema.** -/
def Carries (e : Engine) (id : TableId) (schema : Schema) : Prop :=
  ∀ ⦃pid : PageId⦄ ⦃frame : Frame⦄, e.cache.find? pid = some frame → pid.table = id →
    frame.page.schema = schema

/-- **The cached pages of every registered table have its schema.** -/
def Agrees (e : Engine) : Prop :=
  ∀ ⦃id : TableId⦄ ⦃table : TableFile⦄, e.catalog.table? id = some table →
    e.Carries id table.schema

theorem Formed.congr (hf : Formed e) (h : e'.cache = e.cache) : Formed e' :=
  fun _ _ hfind => hf (h ▸ hfind)

theorem Inherits.formed (h : Inherits e e') (hf : Formed e) : Formed e' := by
  intro pid frame hfind
  rcases h.page hfind with ⟨old, hold, -, hw⟩ | ⟨table, -, -, hw⟩
  · exact hw (hf hold)
  · exact hw

/-- A table whose pages have its schema keeps such pages. -/
theorem Inherits.carries (h : Inherits e e')
    (ht : ∀ table, e.catalog.table? id = some table → table.schema = schema)
    (hc : e.Carries id schema) : e'.Carries id schema := by
  intro pid frame hfind hid
  rcases h.page hfind with ⟨old, hold, hs, -⟩ | ⟨table, htable, hs, -⟩
  · exact hs.trans (hc hold hid)
  · exact hs.trans (ht table (hid ▸ htable))

theorem Inherits.agrees (h : Inherits e e') (ha : Agrees e) : Agrees e' := by
  intro id table ht
  rw [h.catalog_eq] at ht
  exact h.carries (fun found hfound => by rw [ht] at hfound; cases hfound; rfl) (ha ht)

/-- **A table is registered in agreement** with the cached pages exactly if they have its
schema. -/
theorem agrees_add_iff (ha : Agrees e) {name : String}
    (hcat : e'.catalog = e.catalog.add table name) (hcache : e'.cache = e.cache) :
    Agrees e' ↔ e.Carries table.id table.schema := by
  have hsame : ∀ {id schema}, e'.Carries id schema ↔ e.Carries id schema := by
    intro id schema
    unfold Carries
    rw [hcache]
  constructor
  · intro ha'
    refine hsame.mp (ha' ?_)
    rw [hcat, Catalog.table?_add, if_pos rfl]
  · intro hc id found hfound
    rw [hcat, Catalog.table?_add] at hfound
    rw [hsame]
    split at hfound
    · rename_i hid
      cases hfound
      exact hid ▸ hc
    · split at hfound
      · cases hfound
      · exact ha hfound

/-- Fewer tables agree all the more. -/
theorem Agrees.of_fewer (ha : Agrees e) (hcache : e'.cache = e.cache)
    (h : ∀ {id : TableId} {table : TableFile}, e'.catalog.table? id = some table →
      e.catalog.table? id = some table) : Agrees e' := by
  intro id table ht pid frame hf
  exact ha (h ht) (hcache ▸ hf)

/-- A table that was not created is not registered. -/
theorem createTable_failed {file name : String} {f : Failure}
    (h : e.createTable file name schema = (e', .error f)) :
    e'.cache = e.cache ∧ e'.catalog = e.catalog := by
  unfold createTable at h
  split at h <;> cases h
  exact ⟨rfl, rfl⟩

/-- What creating a table does, if it succeeds. -/
theorem createTable_ok {file name : String}
    (h : e.createTable file name schema = (e', .ok table)) : e'.cache = e.cache
      ∧ e'.catalog = e.catalog.add table name ∧ table.schema = schema := by
  have hschema := (asked_of_createTable h).schema_eq
  unfold createTable at h
  split at h
  · cases h
  · cases h
    exact ⟨rfl, rfl, hschema⟩

end Engine

open Engine

/-! ## 3. Every call -/

/-- **A call that suits the cached pages**: those that are cached under the id of a table that it
registers have the table's schema. -/
def Call.SuitsPages (e : Engine) (c : Call) : Prop :=
  ∀ ⦃table : TableFile⦄, c.Registers e table → e.Carries table.id table.schema

namespace Engine

variable {e e' : Engine} {tx : Tx} {access : Access} {pid : PageId} {frame : Frame}
  {table : TableFile} {c : Call} {events : List Event}

/-- **What a call does to tables and to the schemas of pages.**  It leaves the catalog as it is, and
then pages inherit their schemas; or it takes tables out of the catalog, or puts one in, and then
it leaves the cache as it is. -/
inductive Rearranges (e : Engine) (c : Call) : Engine → Prop
  | same {e' : Engine} : Inherits e e' → Rearranges e c e'
  | fewer {e' : Engine} : e'.cache = e.cache →
      (∀ ⦃id : TableId⦄ ⦃table : TableFile⦄, e'.catalog.table? id = some table →
        e.catalog.table? id = some table) → Rearranges e c e'
  | more {e' : Engine} {table : TableFile} {name : String} : e'.cache = e.cache →
      e'.catalog = e.catalog.add table name → c.Registers e table → Rearranges e c e'

theorem rearranges_of_call (ho : Orderly e) (h : e.call c = (e', events)) :
    Rearranges e c e' := by
  by_cases hc : c.KeepsCatalog
  · exact .same (inherits_of_call ho hc h)
  cases c with
  | createTable file name schema =>
    cases h
    rcases hcreate : e.createTable file name schema with ⟨e', f | table⟩
    · obtain ⟨hcache, hcat⟩ := createTable_failed hcreate
      exact .fewer hcache fun _ _ ht => hcat ▸ ht
    · obtain ⟨hcache, hcat, -⟩ := createTable_ok hcreate
      exact .more hcache hcat ⟨e', hcreate⟩
  | register table name =>
    cases h
    exact .more rfl rfl rfl
  | unregister id =>
    cases h
    exact .fewer rfl fun _ _ ht => Assoc.find?_of_erase ht
  | forgetTables =>
    cases h
    exact .fewer rfl fun _ _ ht => by cases ht
  | _ => exact absurd trivial hc

/-- What a page needs to be read right: the store is in order, and cached pages are well formed and
have the schemas of their tables. -/
structure Decoded (e : Engine) : Prop where
  orderly : Orderly e
  formed : Formed e
  agrees : Agrees e

theorem decoded_new (config : Config) (disk : Disk) :
    Decoded { config := config, disk := disk } where
  orderly := orderly_new config disk
  formed _ _ hf := by cases hf
  agrees _ _ ht := by cases ht

theorem Decoded.fetches (hd : Decoded e) (h : Fetches tx e e') : Decoded e' :=
  have hi := h.moves.inherits hd.orderly
  ⟨h.orderly hd.orderly, hi.formed hd.formed, hi.agrees hd.agrees⟩

/-- **Every call that suits the cached pages keeps them in agreement.** -/
theorem Decoded.call (hd : Decoded e) (hs : c.SuitsPages e) (h : e.call c = (e', events)) :
    Decoded e' := by
  have ho := hd.orderly.call c h
  cases rearranges_of_call hd.orderly h with
  | same hi => exact ⟨ho, hi.formed hd.formed, hi.agrees hd.agrees⟩
  | fewer hcache hfewer =>
    exact ⟨ho, hd.formed.congr hcache, hd.agrees.of_fewer hcache fun ht => hfewer ht⟩
  | more hcache hcat hr =>
    exact ⟨ho, hd.formed.congr hcache, (agrees_add_iff hd.agrees hcat hcache).mpr (hs hr)⟩

/-- A page that is handed out has the schema of its table. -/
theorem Decoded.fetch (hd : Decoded e) (h : e.fetch tx access pid = (e', .ok frame)) :
    Decoded e' ∧ frame.page.WellFormed ∧ ∀ table, e.catalog.table? pid.table = some table →
      frame.page.schema = table.schema := by
  have hf := fetch_fetches h
  have hd' := hd.fetches hf
  have hcached := (fetch_ok h).cached
  refine ⟨hd', hd'.formed hcached, fun table ht => ?_⟩
  rw [← hf.same.1] at ht
  exact hd'.agrees ht hcached rfl

/-- The table is registered in a store whose pages are read right. -/
structure Registered (table : TableFile) (e : Engine) : Prop where
  decoded : Decoded e
  table_eq : e.catalog.table? table.id = some table

/-- **The pages of a registered table have rows of its schema.** -/
theorem serves_registered (tx : Tx) (table : TableFile) :
    table.Serves tx (Registered table) fun _ => True where
  count _ _ := trivial
  denied {e e' i f} he h := by
    have hf := fetch_fetches h
    exact ⟨⟨he.decoded.fetches hf, hf.same.1.symm ▸ he.table_eq⟩, trivial⟩
  fetched {e e' i frame} he h := by
    obtain ⟨hd, hw, hschema⟩ := he.decoded.fetch h
    refine ⟨⟨hd, (fetch_fetches h).same.1.symm ▸ he.table_eq⟩, fun row hm => ?_, ?_⟩
    · exact hschema table he.table_eq ▸ hw.fits_of_mem hm
    · cases frame.use <;> trivial

/-! ## 4. Scans that take their time -/

/-- **The rows a scan has handed out**, newest first, while other calls came between: where the
store is, where the scan is, and the rows.  A row is asked for only while the table is registered.
-/
inductive Scanning (tx : Tx) (table : TableFile) (start : Engine) :
    Engine → ScanPlace → List Row → Prop
  | fresh : Scanning tx table start start {} []
  | call {e e' : Engine} {place : ScanPlace} {rows : List Row} {events : List Event} (c : Call) :
      Scanning tx table start e place rows → c.SuitsPages e → e.call c = (e', events) →
      Scanning tx table start e' place rows
  | next {e e' : Engine} {place place' : ScanPlace} {rows : List Row}
      {r : Except Failure (Option Row)} : Scanning tx table start e place rows →
      e.catalog.table? table.id = some table →
      (Source.ofTable tx table).next place e = (place', e', r) →
      Scanning tx table start e' place' (r.toOption.join.toList ++ rows)

theorem Scanning.sound {start : Engine} {place : ScanPlace} {rows : List Row}
    (hd : Decoded start) (h : Scanning tx table start e place rows) :
    Decoded e ∧ place.Fits table.schema ∧ ∀ row ∈ rows, row.fits table.schema := by
  induction h with
  | fresh => exact ⟨hd, ScanPlace.fits_fresh _, nofun⟩
  | call c _ hc he ih => exact ⟨ih.1.call hc he, ih.2⟩
  | @next e e' place place' rows r _ ht hn ih =>
    -- only here are rows handed out, and the table is registered
    obtain ⟨hdecoded, hplace, hrows⟩ := ih
    obtain ⟨hplace', he', hrow, -⟩ :=
      (typed_ofTable (serves_registered tx table)).next hplace ⟨hdecoded, ht⟩ hn
    refine ⟨he'.decoded, hplace', fun row hm => ?_⟩
    rcases List.mem_append.mp hm with hm | hm
    · refine hrow row ?_
      match r, hm with
      | .ok (some found), hm => rw [List.mem_singleton.mp hm]
    · exact hrows row hm

end Engine

/-- The pages of every reachable state are read right. -/
theorem Run.decoded {start e : Engine} {log : List Event} (hd : Decoded start)
    (h : Run (fun e c => c.SuitsPages e) start e log) : Decoded e := by
  induction h with
  | nil => exact hd
  | call c _ hc he ih => exact ih.call hc he

/-- **Pages and tables agree on schemas** in every state that is reached from an empty cache and an
empty catalog, if no table is registered while pages of another schema are cached under its id,
whatever else is called:

* a page that is handed out has the schema of the table that is registered under its id;
* a scan of a registered table lists rows of the table's schema only, also if it fails behind them;
* so does a scan that takes its time, whatever is called between two of its rows, as long as the
  table is registered whenever a row is asked for.

Creating a table leaves pages and tables in agreement exactly if it is created so. -/
theorem schemas_agree {config : Config} {disk : Disk} {e : Engine} {log : List Event}
    (h : Run (fun e c => c.SuitsPages e) { config := config, disk := disk } e log) :
    (∀ {tx : Tx} {access : Access} {pid : PageId} {e' : Engine} {frame : Frame} {table : TableFile},
      e.fetch tx access pid = (e', .ok frame) → e'.catalog.table? pid.table = some table →
      frame.page.schema = table.schema)
    ∧ (∀ {tx : Tx} {table : TableFile}, e.catalog.table? table.id = some table →
      ∀ row ∈ (e.scan tx table).2.1, row.fits table.schema)
    ∧ (∀ {tx : Tx} {table : TableFile} {e' : Engine} {place : ScanPlace} {rows : List Row},
      Scanning tx table e e' place rows → ∀ row ∈ rows, row.fits table.schema)
    ∧ ∀ {file name : String} {schema : Schema} {e' : Engine} {table : TableFile},
      e.createTable file name schema = (e', .ok table) →
      (Agrees e' ↔ e.Carries table.id schema) := by
  have hd := Run.decoded (decoded_new config disk) h
  refine ⟨fun hf ht => ?_, fun {tx table} ht => ?_, fun hs => (hs.sound hd).2.2, fun hc => ?_⟩
  · rw [(fetch_fetches hf).same.1] at ht
    exact (hd.fetch hf).2.2 _ ht
  · rcases hdrain : (Source.ofTable tx table).drain {} e with ⟨place, e', rows, r⟩
    have hfits := (typed_ofTable (serves_registered tx table)).drain
      (ScanPlace.fits_fresh _) ⟨hd, ht⟩ hdrain
    rw [Engine.scan, hdrain]
    exact hfits
  · obtain ⟨hcache, hcat, hschema⟩ := createTable_ok hc
    exact hschema ▸ agrees_add_iff hd.agrees hcat hcache

namespace Sample

/-- One column of texts, as wide as the one of integers. -/
def texts : Schema := ⟨[⟨"s", .bytes 7⟩]⟩

/-- The table of texts in the file `t`. -/
def textTable : TableFile := ⟨table.id, table.path, texts, 40, 1⟩

/-- The store with the table of texts in place of the one of integers. -/
def retyped (e : Engine) : Engine :=
  { e with
    disk := { e.disk with opened := 2 }
    catalog := { tables := [(textTable.id, textTable)], names := [("t", textTable.id)] } }

/-- The store with the first row, and no page in its cache. -/
def emptied : Engine := committed.clear.1

/-- Creating a table of texts in the file `t` succeeds while the table of integers is
registered. -/
theorem createTable_texts {e : Engine} (hdisk : e.disk = committed.disk)
    (hcat : e.catalog = committed.catalog) (hconfig : e.config = start.config) :
    e.createTable "t" "t" texts = (retyped e, .ok textTable) := by
  have hfile : committed.disk.openFile "t" = .ok (committed.disk, table.path) :=
    openFile_there rfl (by decide +kernel)
  have hopen : TableFile.openAt .file committed.disk "t" texts 40
      = ({ committed.disk with opened := 2 }, .ok textTable) :=
    openAt_t (by decide) hfile (by decide +kernel)
  have hadd : committed.catalog.add textTable "t"
      = { tables := [(textTable.id, textTable)], names := [("t", textTable.id)] } := by
    decide +kernel
  unfold Engine.createTable
  rw [hdisk, hcat, hconfig, show start.config.pageSize = 40 from rfl,
    show start.config.idOf = .file from rfl, hopen]
  simp only [hadd, retyped, hdisk, hconfig]

theorem run_suiting : Run (fun e c => c.SuitsPages e) start (retyped emptied) (history.take 2) := by
  have h₀ : Run (fun e c => c.SuitsPages e) start opened [] :=
    .call (.createTable "t" "t" schema) .nil (fun _ _ _ _ hf => by cases hf)
      (by simp only [call, createTable_start])
  have h₁ : Run (fun e c => c.SuitsPages e) start inserted (history.take 1) :=
    h₀.call (.insert ⟨1⟩ table.id ⟨[.int 5], none⟩) (fun _ hr => by cases hr) call_inserted
  have h₂ : Run (fun e c => c.SuitsPages e) start committed (history.take 2) :=
    h₁.call (.complete ⟨1⟩ true) (fun _ hr => by cases hr) call_committed
  have h₃ : Run (fun e c => c.SuitsPages e) start emptied (history.take 2) :=
    h₂.call .clear (fun _ hr => by cases hr) rfl
  have hcache : emptied.cache.frames = [] := by decide +kernel
  refine h₃.call (.createTable "t" "t" texts) (fun _ _ pid frame hf => ?_) ?_
  · rw [Cache.find?, hcache] at hf
    cases hf
  · simp only [call, createTable_texts (e := emptied) rfl rfl rfl]

end Sample

/-- The file with the first row is registered as a table of texts once its page has left the cache:
the page is read again, and the row is a text. -/
theorem schemas_agree_texts :
    Run (fun e c => c.SuitsPages e) Sample.start (Sample.retyped Sample.emptied)
        (Sample.history.take 2)
      ∧ ((Sample.retyped Sample.emptied).scan ⟨3⟩ Sample.textTable).2.1
        = [⟨[.text ""], some Sample.first⟩]
      ∧ ∀ row ∈ ((Sample.retyped Sample.emptied).scan ⟨3⟩ Sample.textTable).2.1,
        row.fits Sample.texts :=
  ⟨Sample.run_suiting, by decide +kernel,
    (schemas_agree Sample.run_suiting).2.1 (by decide +kernel)⟩

/-- **A page outlives the schema of its table.**  The file with the first row is registered as a
table of texts while its page is cached: the page that is handed out has the old schema, and a scan
of the new table lists the integer. -/
theorem schemas_disagree :
    Run (fun _ _ => True) Sample.start (Sample.retyped Sample.committed) (Sample.history.take 2)
      ∧ (Sample.retyped Sample.committed).catalog.table? Sample.first.page.table
        = some Sample.textTable
      ∧ (((Sample.retyped Sample.committed).fetch ⟨3⟩ .read Sample.first.page).2.toOption.map
        fun frame => frame.page.schema) = some Sample.schema
      ∧ Sample.schema ≠ Sample.textTable.schema
      ∧ ((Sample.retyped Sample.committed).scan ⟨3⟩ Sample.textTable).2.1
        = [⟨[.int 5], some Sample.first⟩]
      ∧ ¬ (⟨[.int 5], some Sample.first⟩ : Row).fits Sample.textTable.schema := by
  refine ⟨(Sample.run_committed.mono fun _ => trivial).call (.createTable "t" "t" Sample.texts)
    trivial ?_, by decide +kernel, by decide +kernel, by decide, by decide +kernel, by decide⟩
  simp only [call, Sample.createTable_texts (e := Sample.committed) rfl rfl rfl]

end RowStore
