import RowStore.Proofs.Twins
import RowStore.Proofs.Uncut

/-!
# How many pages the cache may hold cannot be told

Two stores with the same new tables, whose caches differ in capacity, get the same calls, and none
of them fails in either.  The callers get the same rows at the same record ids, every value cut to
its column, and the files are the same, byte by byte.

The one thing that can be told is a text that is longer than its column.  A page that was not
evicted since the text was put there has it uncut (`capacity_told`).  Where nobody puts one there,
all rows on cached pages are cut already (`Engine.Snug`), and the replies are the same.  Main
statement: `capacity_untold`.
-/

namespace RowStore

/-! ## 1. Rows that are cut already -/

namespace Engine

variable {e e' : Engine} {c : Call} {reply : Reply} {calls : List Call} {replies : List Reply}
  {log : List Event}

/-- **Where no client puts a text that is longer than its column**, no page ever has one, and every
reply has its rows as they are stored. -/
theorem Replies.snug (h : Replies e c e' reply) (ha : Accounted e log) (hn : Snug e)
    (hc : c.OfClients e.catalog) (hu : c.Uncut e.catalog) : Snug e' ∧ reply.cut = reply := by
  have hp := ha.sound.proper
  cases h with
  | fetched hf =>
    have hn' := (fetch_fetches hf).snug hp ha.tidy hn
    exact ⟨hn', by rw [Reply.cut, (hn' _ _ (fetch_ok hf).cached).rows]⟩
  | inserted hi => exact ⟨hn.insert ha hu hi, rfl⟩
  | deleted hd => exact ⟨hn.delete ha hd, rfl⟩
  | scanned hs =>
    exact ⟨(scan_cases hs).1.snug hp ha.tidy hn, by rw [Reply.cut, hn.scan ha hc hs]⟩
  | completed hcomp => exact ⟨hn.complete ha hcomp, rfl⟩

theorem Snug.serve (hn : Snug e) (ha : Accounted e log) (ho : Orderly e)
    (hc : ∀ c ∈ calls, c.OfClients e.catalog) (hu : ∀ c ∈ calls, c.Uncut e.catalog)
    (h : serve calls e = some (e', replies)) : replies.map Reply.cut = replies := by
  induction calls generalizing e replies log with
  | nil =>
    cases h
    rfl
  | cons c calls ih =>
    obtain ⟨e₁, reply, rest, hone, rfl, hrest, rfl⟩ := serve_cons h
    obtain ⟨hfirst, hcalls⟩ := List.forall_mem_cons.mp hc
    obtain ⟨huncut, hus⟩ := List.forall_mem_cons.mp hu
    obtain ⟨hn₁, hreply⟩ := hone.snug ha hn hfirst huncut
    have hcatalog := hone.catalog_eq ho
    rw [← hcatalog] at hcalls hus
    rw [List.map_cons, hreply,
      ih hn₁ (ha.call (hfirst.transactional e) rfl) (ho.call c rfl) hcalls hus hrest]

/-! ## 2. New tables -/

/-- The store with a cache for so many pages. -/
def withPages (e : Engine) (pages : Nat) : Engine :=
  { e with config := { e.config with pages := pages } }

/-- Creating a table has nothing to do with the cache. -/
theorem createTable_withPages (e : Engine) (pages : Nat) (file name : String) (schema : Schema) :
    (e.withPages pages).createTable file name schema
      = ((e.createTable file name schema).1.withPages pages,
        (e.createTable file name schema).2) := by
  have hidOf : (e.withPages pages).config.idOf = e.config.idOf := rfl
  have hsize : (e.withPages pages).config.pageSize = e.config.pageSize := rfl
  have hdisk : (e.withPages pages).disk = e.disk := rfl
  unfold createTable
  rw [hidOf, hsize, hdisk]
  rcases TableFile.openAt e.config.idOf e.disk file schema e.config.pageSize with ⟨disk, f | table⟩
  · rfl
  · rfl

end Engine

/-- The creation of a table that is not known yet on an empty file. -/
def Call.Creates (e : Engine) : Call → Prop
  | createTable file name schema =>
    e.RegistersOnce file name schema ∧ e.OpensEmpty file name schema
  | _ => False

theorem Call.Creates.transactional {e : Engine} {c : Call} (h : c.Creates e) :
    c.Transactional e := by
  cases c with
  | createTable _ _ _ => exact h
  | _ => cases h

open Engine

variable {start e : Engine} {log : List Event}

/-- Creating tables brings no page into the cache. -/
theorem Run.cache_of_creates (h : Run (fun e c => c.Creates e) start e log) :
    e.cache = start.cache := by
  induction h with
  | nil => rfl
  | call c _ hc he ih =>
    cases c with
    | createTable file name schema =>
      cases he
      exact (createTable_cases hc.1 rfl).cache_eq.trans ih
    | _ => cases hc

/-- The same tables can be created in a store with a cache for another number of pages. -/
theorem Run.withPages (pages : Nat) (h : Run (fun e c => c.Creates e) start e log) :
    Run (fun e c => c.Creates e) (start.withPages pages) (e.withPages pages) log := by
  induction h with
  | nil => exact .nil
  | @call e e' log events c _ hc he ih =>
    cases c with
    | createTable file name schema =>
      have hcreate := e.createTable_withPages pages file name schema
      cases he
      refine ih.call (.createTable file name schema) ⟨fun d table hd => ?_, fun d table hd => ?_⟩ ?_
      · obtain ⟨rfl, hok⟩ := Prod.mk.inj (hcreate.symm.trans hd)
        exact hc.1 _ table (Prod.ext rfl hok)
      · obtain ⟨rfl, hok⟩ := Prod.mk.inj (hcreate.symm.trans hd)
        exact hc.2 (e.createTable file name schema).1 table (Prod.ext rfl hok)
      · rw [Engine.call, hcreate]
    | _ => cases hc

theorem Run.regular {config : Config} {folders : List Path} {files : List (Path × FileContent)}
    (h : Run (fun e c => c.Creates e)
      { config := config, disk := { folders := folders, files := files } } e log) :
    Regular e where
  orderly := h.orderly (orderly_new config _)
  uniform := Run.uniform (orderly_new config _) (uniform_new config _)
    (h.mono fun hc => hc.transactional.oneSize)
  accounted := ⟨log, (h.mono Call.Creates.transactional).accounted
    (accounted_new config folders files)⟩

/-! ## 3. Main statement -/

/-- **How many pages the cache may hold cannot be told.**  Tables are created in a new store, each
once and on an empty file; then the same calls are served by this store and by one that differs in
the capacity of its cache only.  If no call fails in either, then call by call the replies have the
same rows at the same record ids, every row as it is stored, and all files end up with the same
bytes.  The replies are the same as they are if no row is inserted with a value that is longer than
its column. -/
theorem capacity_untold {config : Config} {folders : List Path}
    {files : List (Path × FileContent)}
    (h : Run (fun e c => c.Creates e)
      { config := config, disk := { folders := folders, files := files } } start log)
    (pages : Nat) {calls : List Call} (hc : ∀ c ∈ calls, c.OfClients start.catalog)
    {e d : Engine} {replies replies' : List Reply} (he : serve calls start = some (e, replies))
    (hd : serve calls (start.withPages pages) = some (d, replies')) :
    replies'.map Reply.cut = replies.map Reply.cut
      ∧ (∀ path, d.disk.content path = e.disk.content path)
      ∧ ((∀ c ∈ calls, c.Uncut start.catalog) → replies' = replies) := by
  have h' := h.withPages pages
  have hr := h.regular
  have hr' : Regular (start.withPages pages) := Run.regular h'
  have ht : Twins start (start.withPages pages) :=
    ⟨rfl, rfl, fun _ => rfl, fun _ => rfl, fun _ _ => Iff.rfl⟩
  obtain ⟨hafter, hreplies⟩ := ht.serve hr hr' hc he hd
  refine ⟨hreplies, hafter.disk_eq, fun hu => ?_⟩
  have hn : Snug start := fun pid frame hf => by
    rw [h.cache_of_creates] at hf
    cases hf
  have hn' : Snug (start.withPages pages) := fun pid frame hf => hn pid frame hf
  obtain ⟨log₁, ha⟩ := hr.accounted
  obtain ⟨log₂, ha'⟩ := hr'.accounted
  rw [hn.serve ha hr.orderly hc hu he, hn'.serve ha' hr'.orderly hc hu hd] at hreplies
  exact hreplies

namespace Sample

/-- Two transactions put one text each, and a third one reads both. -/
def putting (text : String) : List Call :=
  [.insert ⟨1⟩ wordTable.id ⟨[.text text], none⟩, .complete ⟨1⟩ true,
    .insert ⟨2⟩ wordTable.id ⟨[.text "d"], none⟩, .complete ⟨2⟩ true, .scan ⟨3⟩ wordTable]

/-- The replies, if the first text is read as this. -/
def told (text read : String) : List Reply :=
  let first : RecordId := ⟨wordTable.pageId 0, 0⟩
  let second : RecordId := ⟨wordTable.pageId 1, 0⟩
  [.inserted ⟨[.text text], some first⟩ [first.page], .done,
    .inserted ⟨[.text "d"], some second⟩ [second.page], .done,
    .rows words [⟨[.text read], some first⟩, ⟨[.text "d"], some second⟩]]

theorem run_wordsOpened : Run (fun e c => c.Creates e) tiny wordsOpened [] :=
  .call (.createTable "t" "t" words) .nil ⟨registersOnce_tiny, opensEmpty_tiny⟩ (by
    simp only [call, createTable_tiny])

theorem ofClients_putting (text : String) :
    ∀ c ∈ putting text, c.OfClients wordsOpened.catalog := by
  simp only [putting, List.forall_mem_cons, Call.OfClients, true_and]
  exact ⟨table?_wordsOpened, List.forall_mem_nil _⟩

end Sample

/-- **A text that is too long tells whether its page was evicted.**  Two pages do not fit into a
cache for one, so that the first row is read from disk there, and the store with a cache for two has
it as it was inserted. -/
theorem capacity_told : Run (fun e c => c.Creates e) Sample.tiny Sample.wordsOpened []
    ∧ (∀ c ∈ Sample.putting "abc", c.OfClients Sample.wordsOpened.catalog)
    ∧ (serve (Sample.putting "abc") Sample.wordsOpened).map Prod.snd
      = some (Sample.told "abc" "abc")
    ∧ (serve (Sample.putting "abc") (Sample.wordsOpened.withPages 1)).map Prod.snd
      = some (Sample.told "abc" "ab")
    ∧ Sample.told "abc" "ab" ≠ Sample.told "abc" "abc" :=
  ⟨Sample.run_wordsOpened, Sample.ofClients_putting "abc", by decide +kernel, by decide +kernel,
    by decide +kernel⟩

/-- Where the first text is as long as its column, the replies are the same, though one cache holds
both pages at the end and the other only one. -/
theorem capacity_untold_tiny : ∃ e d replies,
    serve (Sample.putting "ab") Sample.wordsOpened = some (e, replies)
      ∧ serve (Sample.putting "ab") (Sample.wordsOpened.withPages 1) = some (d, replies)
      ∧ (∀ path, d.disk.content path = e.disk.content path)
      ∧ e.cache.size = 2 ∧ d.cache.size = 1 := by
  have hserved : (serve (Sample.putting "ab") Sample.wordsOpened).map
      (fun s => s.1.cache.size) = some 2 := by decide +kernel
  have hserved' : (serve (Sample.putting "ab") (Sample.wordsOpened.withPages 1)).map
      (fun s => s.1.cache.size) = some 1 := by decide +kernel
  obtain ⟨⟨e, replies⟩, he, hsize⟩ := Option.map_eq_some_iff.mp hserved
  obtain ⟨⟨d, replies'⟩, hd, hsize'⟩ := Option.map_eq_some_iff.mp hserved'
  have huncut : ∀ c ∈ Sample.putting "ab", c.Uncut Sample.wordsOpened.catalog := by
    have htable : ∀ {table}, Sample.wordsOpened.catalog.table? Sample.wordTable.id = some table →
        Sample.wordTable = table := fun h => Option.some.inj (Sample.table?_wordsOpened.symm.trans h)
    simp only [Sample.putting, List.forall_mem_cons, Call.Uncut, true_and]
    refine ⟨fun table h => ?_, fun table h => ?_, List.forall_mem_nil _⟩ <;>
      exact htable h ▸ (by decide +kernel)
  obtain ⟨-, hfiles, hsame⟩ :=
    capacity_untold Sample.run_wordsOpened 1 (Sample.ofClients_putting "ab") he hd
  exact ⟨e, d, replies, he, hsame huncut ▸ hd, hfiles, hsize, hsize'⟩

end RowStore
