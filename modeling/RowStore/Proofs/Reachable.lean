import RowStore.Proofs.HeapTable
import RowStore.Proofs.Lock.Consistency

/-!
# What holds in every state of a store

Some things hold whatever is called, by whomever and in whatever order, also after calls that
failed, after tables were taken out of the catalog or replaced, and after early releases
(`Engine.Orderly`): every page is cached once and under its own id, the cache has no more pages than
it may, none of them is the last that 32 bits can name, and the two maps of the lock table agree.

A call that uses pages is made of steps of five kinds (`Engine.Move`); what all of them keep is kept
by the call.  The other calls do one thing each (section 4), and all of them little
(`Engine.Administers`).  Main statement: `Run.orderly`.

More holds as long as registered tables stay as they are: the cache and the disk agree then, whatever
else is called (`Run.sound_of_keepsTables`).
-/

namespace RowStore

/-! ## 1. How many pages are cached -/

namespace Cache

variable {c : Cache} {pid : PageId}

theorem Proper.size_insert_of_cached {frame : Frame} (hp : c.Proper) (hf : frame.page.pid = pid)
    (h : (c.find? pid).isSome) : (c.insert pid frame).size = c.size := by
  rw [(hp.insert hf).size_eq_length_pids, pids_insert_of_cached frame h, hp.size_eq_length_pids]

theorem Proper.size_update {page : Page} (hp : c.Proper) (hpage : page.pid = pid) :
    (c.update pid page).size = c.size := by
  rw [(hp.update hpage).size_eq_length_pids, pids_update, hp.size_eq_length_pids]

/-- A page that is brought in is one more at most. -/
theorem Proper.size_load_le {page : Page} (hp : c.Proper) (hpage : page.pid = pid) :
    (c.load pid page).1.size ≤ c.size + 1 := by
  rw [(hp.load hpage).size_eq_length_pids, hp.size_eq_length_pids]
  unfold Cache.load Cache.insert
  simp only
  split
  · exact Nat.le_succ _
  · rw [List.length_append]
    exact Nat.le_refl _

theorem Proper.size_remove_le (hp : c.Proper) (pid : PageId) : (c.remove pid).size ≤ c.size := by
  rw [(hp.remove pid).size_eq_length_pids, hp.pids_remove, hp.size_eq_length_pids]
  exact List.length_filter_le _ _

/-- A cached page that leaves is one less. -/
theorem Proper.size_remove_lt (hp : c.Proper) (h : (c.find? pid).isSome) :
    (c.remove pid).size < c.size := by
  rw [(hp.remove pid).size_eq_length_pids, hp.pids_remove, hp.size_eq_length_pids]
  exact List.length_filter_lt_length_iff_exists.mpr ⟨pid, hp.mem_pids_iff.mpr h, by simp⟩

end Cache

namespace Engine

variable {e e' : Engine} {tx : Tx} {pid : PageId} {frame : Frame} {table : TableFile} {id : TableId}
  {events : List Event}

/-- Where room was made there is room for one page more. -/
theorem size_lt_of_makeRoom {cache : Cache} (hp : e.cache.Proper)
    (hfits : e.cache.size ≤ e.config.pages) (h : e.makeRoom = .ok cache) :
    cache.size < e.config.pages := by
  unfold makeRoom at h
  split at h
  · obtain ⟨victim, frame, hf, -, rfl⟩ := hp.evict_eq_ok h
    exact Nat.lt_of_lt_of_le (hp.size_remove_lt (by rw [hf]; rfl)) hfits
  · rename_i hlt
    cases h
    exact Nat.lt_of_not_le hlt

/-! ## 2. The invariant -/

/-- **What holds in every state**, whatever was called before. -/
structure Orderly (e : Engine) : Prop where
  proper : e.cache.Proper
  /-- The cache has no more pages than it may. -/
  fits : e.cache.size ≤ e.config.pages
  /-- No cached page is the last that 32 bits can name. -/
  index_lt : ∀ {pid : PageId} {frame : Frame}, e.cache.find? pid = some frame →
    pid.index.toNat + 1 < UInt32.size
  consistent : e.locks.Consistent

theorem orderly_new (config : Config) (disk : Disk) : Orderly { config := config, disk := disk } where
  proper := .empty
  fits := Nat.zero_le _
  index_lt h := by cases h
  consistent := LockTable.consistent_empty

/-- Where a page is cached, the cache may have one. -/
theorem Orderly.pages_pos (h : Orderly e) (hf : e.cache.find? pid = some frame) :
    0 < e.config.pages := by
  have hfits := h.fits
  rw [h.proper.size_eq_length_pids] at hfits
  exact Nat.lt_of_lt_of_le (List.length_pos_of_mem (h.proper.mem_pids hf)) hfits

theorem index_lt_of_readPage {page : Page} (h : e.readPage pid = .ok page) :
    pid.index.toNat + 1 < UInt32.size := by
  obtain ⟨table, -, hr⟩ := readPage_eq_ok_iff.mp h
  exact hr.pageAt.2

/-- Pages that stay cached and pages that were read from disk are not the last. -/
theorem Orderly.index_lt_recached (ho : Orderly e) (h : Recached e e')
    (hf : e'.cache.find? pid = some frame) : pid.index.toNat + 1 < UInt32.size := by
  rcases h.find? hf with hold | hread
  · exact ho.index_lt hold
  · exact index_lt_of_readPage hread

/-- Whatever is left after a page left was cached. -/
theorem find?_of_remove {c : Cache} {pid other : PageId} {found : Frame}
    (h : (c.remove pid).find? other = some found) : c.find? other = some found := by
  rw [Cache.find?_remove] at h
  split at h
  · cases h
  · exact h

theorem Orderly.remove (h : Orderly e) (pid : PageId) :
    Orderly { e with cache := e.cache.remove pid } where
  proper := h.proper.remove pid
  fits := Nat.le_trans (h.proper.size_remove_le pid) h.fits
  index_lt hf := h.index_lt (find?_of_remove hf)
  consistent := h.consistent

theorem FetchStep.orderly (h : FetchStep tx e e') (ho : Orderly e) : Orderly e' := by
  have hproper := h.proper ho.proper
  have hsame := h.recached ho.proper
  cases h with
  | lock mode pid ha =>
    have hlocks := ho.consistent.acquire tx mode pid
    rw [ha] at hlocks
    exact ⟨hproper, ho.fits, ho.index_lt, hlocks⟩
  | @load pid page cache hn hr hm =>
    refine ⟨hproper, ?_, ho.index_lt_recached hsame, ho.consistent⟩
    have hroom := size_lt_of_makeRoom ho.proper ho.fits hm
    have hload := (proper_of_makeRoom ho.proper hm).size_load_le (readPage_eq_ok hr).1
    exact Nat.le_trans hload hroom
  | spoil _ _ => exact ⟨hproper, ho.fits, ho.index_lt, ho.consistent⟩

theorem Fetches.orderly (h : Fetches tx e e') (ho : Orderly e) : Orderly e' := by
  induction h with
  | refl => exact ho
  | tail _ hs ih => exact hs.orderly ih

/-- Pages can all have been looked at only if 32 bits can count them. -/
theorem Orderly.lt_of_seenFull {n : Nat} (ho : Orderly e)
    (h : ∀ j, j < n → SeenFull tx e e' (table.pageId j)) : n < UInt32.size := by
  apply Nat.lt_of_not_le
  intro hle
  obtain ⟨-, ⟨e₁, frame, hbefore, -, hf, -⟩, -⟩ :=
    h (UInt32.size - 1) (Nat.lt_of_lt_of_le (by decide) hle)
  have hindex := (hbefore.orderly ho).index_lt hf
  rw [table.index_pageId (by decide)] at hindex
  exact absurd hindex (by decide)

/-! ## 3. The steps of a call -/

/-- **What a call that uses pages is made of**: steps of requests, empty pages written behind the
last one, changes of pages that were handed out, steps of flushes and completions, and releases of
all locks of a transaction. -/
inductive Move : Engine → Engine → Prop
  | fetch {tx : Tx} {e e' : Engine} : FetchStep tx e e' → Move e e'
  | append {e : Engine} {id : TableId} {table : TableFile} {disk : Disk}
      {r : Except Failure PageId} : e.catalog.table? id = some table →
      table.pageCount e.disk < UInt32.size → table.appendPage e.disk = (disk, r) →
      Move e { e with disk := disk }
  | change {e : Engine} {tx : Tx} {pid : PageId} {frame : Frame} {page : Page} {rid : RecordId}
      {values : Option (List Value)} : Handed e tx .write pid frame →
      frame.page.Changed page rid values → Move e (e.changePage tx pid frame page)
  | settle {e e' : Engine} : SettleStep e e' → Move e e'
  | releaseAll {e : Engine} (tx : Tx) : Move e { e with locks := e.locks.releaseAll tx }

/-- Any number of such steps. -/
abbrev Moves : Engine → Engine → Prop := Relation.ReflTransGen Move

theorem Fetches.moves (h : Fetches tx e e') : Moves e e' := by
  induction h with
  | refl => exact .refl
  | tail _ hs ih => exact ih.tail (.fetch hs)

theorem Settles.moves (h : Settles e e') : Moves e e' := by
  induction h with
  | refl => exact .refl
  | tail _ hs ih => exact ih.tail (.settle hs)

theorem Explored.moves (h : Explored tx id e e') (ho : Orderly e) : Moves e e' := by
  cases h with
  | within hf => exact hf.moves
  | @beyond table e₁ _ disk r ht hf hfull ha hf' =>
    obtain ⟨hcat, hdisk⟩ := hf.same
    have hmove : Move e₁ { e₁ with disk := disk } :=
      .append (hcat ▸ ht) (hdisk ▸ ho.lt_of_seenFull hfull) ha
    exact (hf.moves.tail hmove).trans hf'.moves

theorem Worked.moves (h : Worked tx id e e' events) (ho : Orderly e) : Moves e e' := by
  cases h with
  | explored hx => exact hx.moves ho
  | changed hx hh hc => exact (hx.moves ho).tail (.change hh hc)

theorem complete_moves {commit : Bool} {r : Except Failure Unit} (hp : e.cache.Proper)
    (h : e.complete tx commit = (e', r)) : Moves e e' := by
  obtain ⟨e₁, hs, ⟨-, -, rfl⟩ | ⟨-, rfl⟩⟩ := complete_cases hp h
  · exact hs.moves.tail (.releaseAll tx)
  · exact hs.moves

/-- **A call that uses pages is made of these steps.** -/
theorem Did.moves (h : Did e e' events) (ho : Orderly e) : Moves e e' := by
  cases h with
  | worked hw => exact hw.moves ho
  | settled hs => exact hs.moves
  | completed hc _ => exact complete_moves ho.proper hc

theorem SettleStep.orderly (h : SettleStep e e') (ho : Orderly e) : Orderly e' := by
  have hproper := h.proper ho.proper
  cases h with
  | @write pid frame table disk hf ht hw =>
    have hpid : frame.page.clean.pid = pid := ho.proper.keyed hf
    refine ⟨hproper, Nat.le_trans (Nat.le_of_eq (ho.proper.size_update hpid)) ho.fits,
      fun {other found} hfound => ?_, ho.consistent⟩
    simp only [updatePage, Cache.find?_update] at hfound
    split at hfound
    · rename_i he
      rw [he]
      exact ho.index_lt hf
    · exact ho.index_lt hfound
  | @revert _ pid r hr hm =>
    have hsame := revertPage_recached hr
    rcases revertPage_cases hr with ⟨page, hread, rfl, -⟩ | ⟨f, -, rfl, -⟩
    · refine ⟨hproper, ?_, ho.index_lt_recached hsame, ho.consistent⟩
      have hlt := ho.proper.size_remove_lt hm
      have hload := (ho.proper.remove pid).size_load_le (readPage_eq_ok hread).1
      exact Nat.le_trans hload (Nat.le_trans hlt ho.fits)
    · exact ho.remove pid
  | halt hh =>
    refine ⟨hproper, ?_, fun hf => ?_, hh.locks_eq.symm ▸ ho.consistent⟩
    · rw [hproper.size_eq_length_pids, hh.pids_eq, hh.config_eq, ← ho.proper.size_eq_length_pids]
      exact ho.fits
    · obtain ⟨old, hold, -⟩ := hh.find? hf
      exact ho.index_lt hold

/-- **Every step leaves the store in order.** -/
theorem Move.orderly (h : Move e e') (ho : Orderly e) : Orderly e' := by
  cases h with
  | fetch hf => exact hf.orderly ho
  | append _ _ _ => exact ⟨ho.proper, ho.fits, ho.index_lt, ho.consistent⟩
  | change hh hc =>
    have hpid := hc.same.2.pid_eq.trans (ho.proper.keyed hh.cached)
    refine ⟨ho.proper.insert hpid, ?_, fun {other found} hf => ?_, ho.consistent⟩
    · refine Nat.le_trans (Nat.le_of_eq (ho.proper.size_insert_of_cached hpid ?_)) ho.fits
      rw [hh.cached]
      rfl
    · rw [find?_changePage] at hf
      split at hf
      · rename_i he
        rw [he]
        exact ho.index_lt hh.cached
      · exact ho.index_lt hf
  | settle hs => exact hs.orderly ho
  | releaseAll tx => exact ⟨ho.proper, ho.fits, ho.index_lt, ho.consistent.releaseAll tx⟩

theorem Moves.orderly (h : Moves e e') (ho : Orderly e) : Orderly e' := by
  induction h with
  | refl => exact ho
  | tail _ hs ih => exact hs.orderly ih

theorem SettleStep.config_eq (h : SettleStep e e') : e'.config = e.config := by
  cases h with
  | write _ _ _ => rfl
  | revert hr _ => rcases revertPage_cases hr with ⟨_, -, rfl, -⟩ | ⟨_, -, rfl, -⟩ <;> rfl
  | halt hh => exact hh.config_eq

/-- No step changes the configuration. -/
theorem Moves.config_eq (h : Moves e e') : e'.config = e.config := by
  induction h with
  | refl => rfl
  | tail _ hs ih =>
    rw [← ih]
    cases hs with
    | fetch hf => cases hf <;> rfl
    | settle hs => exact hs.config_eq
    | _ => rfl

/-! ## 4. The other calls -/

/-- A page that is to leave leaves, unless the cache is spoiled. -/
theorem removePage_cases (e : Engine) (pid : PageId) : (e.removePage pid).1 = e
    ∨ (e.removePage pid).1 = { e with cache := e.cache.remove pid } := by
  rcases h : e.removePage pid with ⟨e', r⟩
  unfold removePage at h
  rcases inCache_cases h with ⟨-, rfl, -⟩ | ⟨-, u, hu, -⟩ | ⟨-, f, e₁, hu, -, -⟩
  · exact Or.inl rfl
  · cases hu
    exact Or.inr rfl
  · cases hu

/-- All pages leave and all locks are forgotten, unless the cache is spoiled. -/
theorem clear_cases (e : Engine) : e.clear.1 = e
    ∨ e.clear.1 = { e with cache := e.cache.clear, locks := e.locks.clear } := by
  rcases h : e.clear with ⟨e', r⟩
  unfold Engine.clear at h
  rcases inCache_cases h with ⟨-, rfl, -⟩ | ⟨-, u, hu, -⟩ | ⟨-, f, e₁, hu, -, -⟩
  · exact Or.inl rfl
  · cases hu
    exact Or.inr rfl
  · cases hu

/-- **What creating a table does**, also where it fails: no file has other bytes, and at most the
new table is registered. -/
structure Opens (e e' : Engine) (r : Except Failure TableFile) : Prop where
  config_eq : e'.config = e.config
  content_eq : ∀ path, e'.disk.content path = e.disk.content path
  locks_eq : e'.locks = e.locks
  cache_eq : e'.cache = e.cache
  catalog : e'.catalog = e.catalog
    ∨ ∃ table name, r = .ok table ∧ e'.catalog = e.catalog.add table name

theorem createTable_opens (e : Engine) (file name : String) (schema : Schema) :
    Opens e (e.createTable file name schema).1 (e.createTable file name schema).2 := by
  rcases h : e.createTable file name schema with ⟨e', r⟩
  unfold createTable at h
  split at h
  · rename_i d f ho
    obtain ⟨hcontent, -, -⟩ := openAt_cases ho
    cases h
    exact ⟨rfl, hcontent, rfl, rfl, Or.inl rfl⟩
  · rename_i d table ho
    obtain ⟨hcontent, -, -⟩ := openAt_cases ho
    cases h
    exact ⟨rfl, hcontent, rfl, rfl, Or.inr ⟨table, name, rfl, rfl⟩⟩

/-- Only the cache, the locks and the room for pages matter. -/
theorem Orderly.congr (ho : Orderly e) (hg : e'.config = e.config) (hl : e'.locks = e.locks)
    (hc : e'.cache = e.cache) : Orderly e' :=
  ⟨hc ▸ ho.proper, by rw [hc, hg]; exact ho.fits, fun hf => ho.index_lt (hc ▸ hf),
    hl ▸ ho.consistent⟩

theorem Orderly.opens {r : Except Failure TableFile} (ho : Orderly e) (h : Opens e e' r) :
    Orderly e' :=
  ho.congr h.config_eq h.locks_eq h.cache_eq

theorem Orderly.removePage (ho : Orderly e) (pid : PageId) : Orderly (e.removePage pid).1 := by
  rcases e.removePage_cases pid with he | he <;> rw [he]
  · exact ho
  · exact ho.remove pid

theorem Orderly.clear (ho : Orderly e) : Orderly e.clear.1 := by
  rcases e.clear_cases with he | he <;> rw [he]
  · exact ho
  · exact ⟨.clear e.cache, Nat.zero_le _, fun hf => (by cases hf), e.locks.consistent_clear⟩

/-- **Every call leaves the store in order**, whatever it answers. -/
theorem Orderly.call (ho : Orderly e) (c : Call) (h : e.call c = (e', events)) : Orderly e' := by
  by_cases hp : c.UsesPages
  · exact ((did_of_call ho.proper hp h).moves ho).orderly ho
  cases c with
  | removePage pid =>
    cases h
    exact ho.removePage pid
  | createTable file name schema =>
    cases h
    exact ho.opens (e.createTable_opens file name schema)
  | register table name =>
    cases h
    exact ho.congr rfl rfl rfl
  | unregister table =>
    cases h
    exact ho.congr rfl rfl rfl
  | forgetTables =>
    cases h
    exact ho.congr rfl rfl rfl
  | releasePage tx pid =>
    cases h
    exact ⟨ho.proper, ho.fits, ho.index_lt, ho.consistent.release tx pid⟩
  | clear =>
    cases h
    exact ho.clear
  | _ => exact absurd trivial hp

end Engine

/-! ## 5. Calls that use no pages -/

/-- The call registers this table. -/
def Call.Registers (e : Engine) (table : TableFile) : Call → Prop
  | createTable file name schema => ∃ e', e.createTable file name schema = (e', .ok table)
  | register added _ => added = table
  | _ => False

namespace Engine

variable {e e' : Engine} {c : Call} {table : TableFile} {id : TableId} {events : List Event}

/-- What is registered after a table was put in is this table or was registered before. -/
theorem table?_of_add {c : Catalog} {name : String} {found : TableFile}
    (h : (c.add table name).table? id = some found) :
    found = table ∧ id = table.id ∨ c.table? id = some found := by
  rw [Catalog.table?_add] at h
  split at h
  · rename_i hid
    cases h
    exact Or.inl ⟨rfl, hid⟩
  · split at h
    · cases h
    · exact Or.inr h

/-- **What a call does that uses no pages**: no file has other bytes, nothing is cached that was not
cached before, and what is registered was registered before, or is the table that the call
registers. -/
structure Administers (c : Call) (e e' : Engine) : Prop where
  config_eq : e'.config = e.config
  content_eq : ∀ path, e'.disk.content path = e.disk.content path
  cached : ∀ {pid : PageId} {frame : Frame}, e'.cache.find? pid = some frame →
    e.cache.find? pid = some frame
  registered : ∀ {id : TableId} {table : TableFile}, e'.catalog.table? id = some table →
    e.catalog.table? id = some table ∨ id = table.id ∧ c.Registers e table

theorem administers_of_call (hp : ¬c.UsesPages) (h : e.call c = (e', events)) :
    Administers c e e' := by
  cases c with
  | removePage pid =>
    cases h
    rcases e.removePage_cases pid with he | he <;> rw [he]
    · exact ⟨rfl, fun _ => rfl, fun hf => hf, Or.inl⟩
    · exact ⟨rfl, fun _ => rfl, find?_of_remove, Or.inl⟩
  | createTable file name schema =>
    cases h
    have ho := e.createTable_opens file name schema
    refine ⟨ho.config_eq, ho.content_eq, fun hf => ho.cache_eq ▸ hf, fun {id table} ht => ?_⟩
    rcases ho.catalog with hc | ⟨new, name, hr, hc⟩
    · exact Or.inl (hc ▸ ht)
    · rcases table?_of_add (hc ▸ ht) with ⟨rfl, rfl⟩ | hold
      · exact Or.inr ⟨rfl, _, Prod.ext rfl hr⟩
      · exact Or.inl hold
  | register new name =>
    cases h
    refine ⟨rfl, fun _ => rfl, fun hf => hf, fun ht => ?_⟩
    rcases table?_of_add ht with ⟨rfl, rfl⟩ | hold
    · exact Or.inr ⟨rfl, rfl⟩
    · exact Or.inl hold
  | unregister id =>
    cases h
    exact ⟨rfl, fun _ => rfl, fun hf => hf, fun ht => Or.inl (Assoc.find?_of_erase ht)⟩
  | forgetTables =>
    cases h
    exact ⟨rfl, fun _ => rfl, fun hf => hf, fun ht => by cases ht⟩
  | releasePage tx pid =>
    cases h
    exact ⟨rfl, fun _ => rfl, fun hf => hf, Or.inl⟩
  | clear =>
    cases h
    rcases e.clear_cases with he | he <;> rw [he]
    · exact ⟨rfl, fun _ => rfl, fun hf => hf, Or.inl⟩
    · exact ⟨rfl, fun _ => rfl, fun hf => (by cases hf), Or.inl⟩
  | _ => exact absurd trivial hp

/-- **No call changes the configuration.** -/
theorem Orderly.config_eq (ho : Orderly e) (c : Call) (h : e.call c = (e', events)) :
    e'.config = e.config := by
  by_cases hp : c.UsesPages
  · exact ((did_of_call ho.proper hp h).moves ho).config_eq
  · exact (administers_of_call hp h).config_eq

end Engine

open Engine

/-- **Every state that a store reaches is in order**, whatever is called. -/
theorem Run.orderly {allowed : Engine → Call → Prop} {start e : Engine} {log : List Event}
    (ho : Orderly start) (h : Run allowed start e log) : Orderly e := by
  induction h with
  | nil => exact ho
  | call c _ _ he ih => exact ih.call c he

theorem Run.config_eq {allowed : Engine → Call → Prop} {start e : Engine} {log : List Event}
    (ho : Orderly start) (h : Run allowed start e log) : e.config = start.config := by
  induction h with
  | nil => rfl
  | call c hr _ he ih => exact ((Run.orderly ho hr).config_eq c he).trans ih

/-! ## 6. Tables that stay registered -/

/-- **The calls that keep tables registered as they are**: any but those that take tables out of the
catalog or put others in their place. -/
def Call.KeepsTables (e : Engine) : Call → Prop
  | createTable file name schema => e.RegistersOnce file name schema
  | register .. | unregister .. | forgetTables => False
  | _ => True

theorem Call.OnTables.keepsTables {e : Engine} {c : Call} (h : c.OnTables e) :
    c.KeepsTables e := by
  cases c with
  | createTable file name schema => exact h
  | register | unregister | forgetTables => exact h
  | _ => trivial

namespace Engine

variable {e e' : Engine} {events : List Event}

/-- Pages may leave, and locks may be let go of. -/
theorem Sound.recached (hs : Sound e) {cache : Cache} (locks : LockTable) (hp : cache.Proper)
    (hleft : ∀ {pid : PageId} {frame : Frame}, cache.find? pid = some frame →
      e.cache.find? pid = some frame) : Sound { e with cache := cache, locks := locks } :=
  ⟨hs.tables, hs.idOf, hp, fun hf => hs.lodged (hleft hf), fun hf => hs.clean (hleft hf)⟩

theorem Sound.call_of_keepsTables {c : Call} (hs : Sound e) (hc : c.KeepsTables e)
    (h : e.call c = (e', events)) : Sound e' := by
  by_cases ht : c.OnTables e
  · exact hs.call ht h
  cases c with
  | createTable => exact absurd hc ht
  | register | unregister | forgetTables => exact hc.elim
  | removePage pid =>
    cases h
    rcases e.removePage_cases pid with he | he <;> rw [he]
    · exact hs
    · exact hs.recached e.locks (hs.proper.remove pid) find?_of_remove
  | releasePage tx pid =>
    cases h
    exact hs.recached (e.locks.release tx pid) hs.proper id
  | clear =>
    cases h
    rcases e.clear_cases with he | he <;> rw [he]
    · exact hs
    · exact hs.recached e.locks.clear (.clear e.cache) nofun
  | _ => exact absurd trivial ht

end Engine

/-- **The cache and the disk agree** in every state that is reached while tables stay registered,
whatever else is called. -/
theorem Run.sound_of_keepsTables {start e : Engine} {log : List Event} (hs : Engine.Sound start)
    (h : Run (fun e c => c.KeepsTables e) start e log) : Engine.Sound e := by
  induction h with
  | nil => exact hs
  | call c _ hc he ih => exact ih.call_of_keepsTables hc he

end RowStore
