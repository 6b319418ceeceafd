import RowStore.Proofs.PageBytes
import RowStore.Proofs.PageSchemas

/-!
# How files grow

The calls that keep tables registered do one of seven things each (`Engine.Does`).  One of them makes
a table's file longer: an insert finds no free place in the table and writes a page of zeros behind
the last one (`Engine.lengths_of_call`).  So the file of a registered table consists of whole pages
(`Run.whole`), and the new page stands behind all that was there.

The insert may fail after that.  The new page then is a free place, on disk and as it is seen, and
stays one until a row is put into the table (`Engine.Bare.call`); the table does not grow a second
time before (`Run.grows_once`).
-/

namespace RowStore

/-! ## 1. Appending to a file of whole pages -/

/-- What is written at the end comes behind all that is there. -/
theorem Bytes.writeAt_length (content data : List UInt8) :
    writeAt content content.length data = content ++ data := by
  have hend : (content ++ data).drop content.length = data := List.drop_left
  simp [writeAt, zeros]

/-- **The new page comes behind the whole pages of a file.** -/
theorem TableFile.Appends.content_eq {t : TableFile} {disk disk' : Disk} (h : t.Appends disk disk')
    (hw : t.pageSize ∣ disk.length t.path) :
    disk'.content t.path = disk.content t.path ++ Bytes.zeros t.pageSize := by
  rw [h.disk_eq, Disk.content_writeAt_self, pageCount, Nat.div_mul_cancel hw,
    ← Disk.length_content, Bytes.writeAt_length]

namespace Engine

variable {e e' : Engine} {tx : Tx} {pid : PageId} {frame : Frame} {rid : RecordId}
  {table : TableFile} {id : TableId} {events : List Event}

/-! ## 2. What a call does -/

/-- **What a call does**, if it keeps tables registered: it requests pages, and may then change a
row; it flushes or reverts pages, and may release locks; it lets pages leave; or it creates a
table. -/
inductive Does (e : Engine) : Call → Engine → Prop
  | fetched {c : Call} {tx : Tx} {e' : Engine} : Fetches tx e e' → Does e c e'
  | explored {tx : Tx} {id : TableId} {row : Row} {e' : Engine} :
      Explored tx id e e' → Does e (.insert tx id row) e'
  | inserted {tx : Tx} {id : TableId} {row : Row} {table : TableFile} {pid : PageId} {e₁ : Engine}
      {frame : Frame} {page : Page} {rid : RecordId} : e.catalog.table? id = some table →
      Room tx table e pid e₁ → Handed e₁ tx .write pid frame →
      frame.page.insert row = .ok (page, rid) → (e.insert tx id row).2.2 = .ok [pid] →
      Does e (.insert tx id row) (e₁.changePage tx pid frame page)
  | deleted {tx : Tx} {row : Row} {rid : RecordId} {e₁ : Engine} {frame : Frame} {page : Page} :
      row.rid = some rid → Fetches tx e e₁ → Handed e₁ tx .write rid.page frame →
      frame.page.delete row = .ok page →
      Does e (.delete tx row) (e₁.changePage tx rid.page frame page)
  | settled {c : Call} {e₁ : Engine} (locks : LockTable) :
      Settles e e₁ → Does e c { e₁ with locks := locks }
  | recached {c : Call} {e' : Engine} : Recached e e' → Does e c e'
  | created {file name : String} {schema : Schema} {e' : Engine} {r : Except Failure TableFile} :
      e.createTable file name schema = (e', r) → Created e e' r →
      Does e (.createTable file name schema) e'

theorem does_of_call {c : Call} (hp : e.cache.Proper) (hc : c.KeepsTables e)
    (h : e.call c = (e', events)) : e.Does c e' := by
  cases c with
  | insert tx id row =>
    rcases hi : e.insert tx id row with ⟨e₁, stored, r⟩
    simp only [call, hi] at h
    cases h
    rcases insert_cases hp hi with ⟨hx, -⟩
      | ⟨table, pid, e₂, frame, page, rid, ht, -, hroom, hh, hins, rfl, -, rfl⟩
    · exact .explored hx
    · exact .inserted ht hroom hh hins (by rw [hi])
  | delete tx row =>
    rcases hd : e.delete tx row with ⟨e₁, r⟩
    simp only [call, hd] at h
    cases h
    rcases delete_cases hp hd with ⟨hf, -⟩ | ⟨_, e₂, _, _, hrid, hf, hh, hdel, rfl, -⟩
    · exact .fetched hf
    · exact .deleted hrid hf hh hdel
  | fetch tx access pid =>
    cases h
    exact .fetched (fetch_fetches rfl)
  | scan tx table =>
    cases h
    exact .fetched (scan_cases rfl).1
  | complete tx commit =>
    rcases hcomplete : e.complete tx commit with ⟨e₁, r⟩
    simp only [call, hcomplete] at h
    cases h
    obtain ⟨e₂, hsettles, ⟨-, -, rfl⟩ | ⟨-, rfl⟩⟩ := complete_cases hp hcomplete
    · exact .settled _ hsettles
    · exact .settled e'.locks hsettles
  | flushPage pid =>
    cases h
    exact .settled _ (flushPage_settles rfl)
  | flushChanged tx =>
    cases h
    exact .settled _ (flushChanged_settles rfl)
  | flushAll =>
    cases h
    exact .settled _ (flushAll_settles rfl)
  | removePage pid =>
    cases h
    rcases e.removePage_cases pid with he | he <;> rw [he]
    · exact .fetched (Relation.ReflTransGen.refl : Fetches ⟨0⟩ e e)
    · exact .recached ⟨rfl, rfl, rfl, fun hp => hp.remove pid, fun hf => Or.inl (find?_of_remove hf)⟩
  | releasePage tx pid =>
    cases h
    exact .recached ⟨rfl, rfl, rfl, id, Or.inl⟩
  | clear =>
    cases h
    rcases e.clear_cases with he | he <;> rw [he]
    · exact .fetched (Relation.ReflTransGen.refl : Fetches ⟨0⟩ e e)
    · exact .recached ⟨rfl, rfl, rfl, fun _ => .clear e.cache, fun hf => by cases hf⟩
  | createTable file name schema =>
    cases h
    exact .created rfl (createTable_cases hc rfl)
  | register | unregister | forgetTables => exact hc.elim

/-! ## 3. The lengths of the files -/

/-- A table grows where no place in it is free. -/
structure Grows (e e' : Engine) (table : TableFile) : Prop where
  registered : e.catalog.table? table.id = some table
  full : ∀ rid, ¬ e.Vacant table rid
  appends : table.Appends e.disk e'.disk

/-- **What a failing insert does to the files**: nothing, or it makes its table grow. -/
theorem Explored.files (h : Explored tx id e e') (hs : Sound e) :
    (∀ path, e'.disk.content path = e.disk.content path)
      ∨ ∃ table, table.id = id ∧ e.Grows e' table := by
  cases h with
  | within hf => exact Or.inl fun _ => by rw [hf.same.2]
  | @beyond table e₁ _ disk r ht hf hfull ha hf' =>
    obtain rfl : table.id = id := (hs.tables ht).1
    have hc : table.pageCount e₁.disk < UInt32.size := hf.same.2 ▸ lt_of_seenFull hs hfull
    rw [hf'.same.2]
    rcases appends_or_same hc ha with happ | hsame
    · rw [hf.same.2] at happ
      exact Or.inr ⟨table, rfl, ht, fun rid hv =>
        not_vacant_of_seenFull hs ht hfull hv.index_lt hv.own hv, by rw [hf'.same.2]; exact happ⟩
    · rw [hf.same.2] at hsame
      exact Or.inl hsame

/-- A cached page is written in its place, which makes its file no longer. -/
theorem Sound.length_write {disk : Disk} (hs : Sound e) (hf : e.cache.find? pid = some frame)
    (ht : e.catalog.table? pid.table = some table) (hw : table.Writes e.disk frame.page disk)
    (path : Path) : disk.length path = e.disk.length path := by
  obtain ⟨-, hshape, hlt⟩ := rewrites_of_writes hs hf ht hw
  by_cases hp : path = table.path
  · rw [hp, hw.disk_eq, Disk.length_writeAt_self, Page.length_image, hshape.size_eq,
      hs.proper.keyed hf, Nat.max_eq_left (TableFile.stop_le_length hlt)]
  · rw [← Disk.length_content, hw.content_of_ne hp, Disk.length_content]

/-- **Flushing and completing makes no file longer.** -/
theorem Settles.length_eq (h : Settles e e') (hs : Sound e) (path : Path) :
    e'.disk.length path = e.disk.length path := by
  induction h with
  | refl => rfl
  | tail hr hstep ih =>
    rw [← ih]
    cases hstep with
    | write hf ht hw => exact (Settles.sound hr hs).length_write hf ht hw path
    | revert hrevert _ => rw [(revertPage_recached hrevert).disk_eq]
    | halt hh => exact Disk.length_congr (content_of_files hh.files_eq) path

/-- **The files after a call.**  Only an insert makes a file longer. -/
theorem lengths_of_call {c : Call} (hs : Sound e) (hc : c.KeepsTables e)
    (h : e.call c = (e', events)) :
    (∀ path, e'.disk.length path = e.disk.length path)
      ∨ ∃ tx table row, c = .insert tx table.id row ∧ e.Grows e' table := by
  have hexplored : ∀ {tx : Tx} {id : TableId} {row : Row} {e₁ : Engine}, c = .insert tx id row →
      Explored tx id e e₁ → e'.disk = e₁.disk →
      (∀ path, e'.disk.length path = e.disk.length path)
        ∨ ∃ tx table row, c = .insert tx table.id row ∧ e.Grows e' table := by
    intro tx id row e₁ he hx hdisk
    rcases hx.files hs with hsame | ⟨table, rfl, ht, hfull, happ⟩
    · exact Or.inl (Disk.length_congr (hdisk ▸ hsame))
    · exact Or.inr ⟨tx, table, row, he, ht, hfull, hdisk ▸ happ⟩
  cases does_of_call hs.proper hc h with
  | fetched hf => exact Or.inl fun path => by rw [hf.same.2]
  | explored hx => exact hexplored rfl hx rfl
  | inserted ht hroom _ _ _ => exact hexplored rfl (hroom.explored ht) rfl
  | @deleted _ _ _ e₁ _ _ _ hf _ _ =>
    have hdisk := hf.same.2
    exact Or.inl fun path => congrArg (Disk.length · path) hdisk
  | settled locks hsettles => exact Or.inl (hsettles.length_eq hs :)
  | recached hr => exact Or.inl fun path => by rw [hr.disk_eq]
  | created _ hcreated => exact Or.inl (Disk.length_congr hcreated.content_eq)

/-! ## 4. Whole pages -/

/-- **The files of registered tables consist of whole pages.** -/
def Whole (e : Engine) : Prop :=
  ∀ ⦃id : TableId⦄ ⦃table : TableFile⦄, e.catalog.table? id = some table →
    table.pageSize ∣ e.disk.length table.path

/-- A table that has grown has whole pages still, and no other file has changed. -/
theorem Grows.dvd {other : TableFile} (h : e.Grows e' table) (hs : Sound e) (hw : Whole e)
    (ho : e.catalog.table? id = some other) : other.pageSize ∣ e'.disk.length other.path := by
  by_cases hid : id = table.id
  · obtain rfl : other = table := Option.some.inj (ho.symm.trans (hid ▸ h.registered))
    rw [← Disk.length_content, h.appends.content_eq (hw ho), List.length_append,
      Bytes.length_zeros, Disk.length_content]
    exact Nat.dvd_add (hw ho) (Nat.dvd_refl _)
  · rw [← Disk.length_content, h.appends.content_of_ne (hs.path_ne h.registered ho hid),
      Disk.length_content]
    exact hw ho

/-- **Every call leaves whole pages.** -/
theorem Whole.call {c : Call} (hw : Whole e) (hs : Sound e) (ho : Orderly e)
    (hc : c.KeepsTables e) (h : e.call c = (e', events)) : Whole e' := by
  intro id found ht
  have hold : e.catalog.table? id = some found → found.pageSize ∣ e'.disk.length found.path := by
    intro ht
    rcases lengths_of_call hs hc h with hsame | ⟨_, _, _, -, hgrows⟩
    · rw [hsame]
      exact hw ht
    · exact hgrows.dvd hs hw ht
  by_cases hk : c.KeepsCatalog
  · exact hold ((inherits_of_call ho hk h).catalog_eq ▸ ht)
  cases c with
  | createTable file name schema =>
    rcases hcreate : e.createTable file name schema with ⟨e₁, r⟩
    simp only [Engine.call, hcreate] at h
    cases h
    rcases (createTable_cases hc hcreate).tables with hcat | ⟨new, -, hnew, -, hadd⟩
    · exact hold (hcat ▸ ht)
    · rw [hadd] at ht
      split at ht
      · cases ht
        exact hnew.whole
      · exact hold ht
  | register | unregister | forgetTables => exact hc.elim
  | _ => exact absurd trivial hk

/-! ## 5. Registered tables -/

/-- **The table is registered**, in a store where cache and disk agree. -/
structure Serving (e : Engine) (table : TableFile) : Prop where
  orderly : Orderly e
  sound : Sound e
  registered : e.catalog.table? table.id = some table

theorem Serving.fetches (hs : Serving e table) (h : Fetches tx e e') : Serving e' table :=
  ⟨h.orderly hs.orderly, (h.sound hs.sound).1, h.same.1 ▸ hs.registered⟩

/-- **Calls that keep tables registered** keep the table. -/
theorem Serving.call {c : Call} {events : List Event} (hs : Serving e table)
    (hc : c.KeepsTables e) (h : e.call c = (e', events)) : Serving e' table := by
  refine ⟨hs.orderly.call c h, hs.sound.call_of_keepsTables hc h, ?_⟩
  by_cases hk : c.KeepsCatalog
  · exact (inherits_of_call hs.orderly hk h).catalog_eq ▸ hs.registered
  cases c with
  | createTable file name schema =>
    cases h
    exact (createTable_cases hc rfl).table?_of_some hs.registered
  | register | unregister | forgetTables => exact hc.elim
  | _ => exact absurd trivial hk

/-! ## 6. Places that nothing was put at -/

/-- **A bare place**: nothing is seen there, and nothing is stored there. -/
structure Bare (e : Engine) (rid : RecordId) : Prop where
  content_eq : e.content rid = none
  stored_eq : e.stored rid = none

theorem Bare.sameRows (hb : e.Bare rid) (h : SameRows e e') : e'.Bare rid :=
  ⟨(h.content_eq rid).trans hb.content_eq, (h.stored_eq rid).trans hb.stored_eq⟩

/-- Whether the page stays cached, leaves or is read again, nothing comes to the place. -/
theorem Bare.recached (hb : e.Bare rid) (h : Recached e e') : e'.Bare rid := by
  have hstored : e'.stored rid = none := (h.stored rid).trans hb.stored_eq
  refine ⟨?_, hstored⟩
  cases hf : e'.cache.find? rid.page with
  | none => rw [content_of_not_cached hf, hstored]
  | some frame =>
    rw [content_of_cached hf]
    rcases h.find? hf with hold | hread
    · rw [← content_of_cached hold, hb.content_eq]
    · exact (stored_of_readPage hread rid.slot).trans hb.stored_eq

/-- What is written to the place is what is seen there, and what is read again is what is stored
there. -/
theorem Bare.settles (hb : e.Bare rid) (hs : Sound e) (h : Settles e e') : e'.Bare rid := by
  induction h with
  | refl => exact hb
  | tail hr hstep ih =>
    have hs' := Settles.sound hr hs
    cases hstep with
    | write hf ht hw =>
      refine ⟨(content_write hs' hf ht hw rid).trans ih.content_eq, ?_⟩
      rw [stored_write hs' hf ht hw]
      split
      · exact ih.content_eq
      · exact ih.stored_eq
    | revert hrevert _ => exact ih.recached (revertPage_recached hrevert)
    | halt hh => exact ih.sameRows (hh.sound hs').2

/-- A change at another place, or a row that is taken away, puts nothing at the place. -/
theorem Bare.changePage {changed : RecordId} {page : Page} {values : Option (List Value)}
    (hb : e.Bare rid) (hs : Sound e) (hf : e.cache.find? pid = some frame)
    (hc : frame.page.Changed page changed values) (hne : changed ≠ rid ∨ values = none) :
    (e.changePage tx pid frame page).Bare rid := by
  obtain ⟨-, -, hstored, table, -, hcontent⟩ := hs.changePage tx hf hc
  refine ⟨?_, (hstored rid).trans hb.stored_eq⟩
  rw [hcontent]
  split
  · rename_i he
    rcases hne with hne | rfl
    · exact absurd he.symm hne
    · rfl
  · exact hb.content_eq

end Engine

/-- **The calls by which no row is put into a table**: inserts into it only where they fail. -/
def Call.PutsNothing (id : TableId) (e : Engine) (c : Call) : Prop :=
  c.KeepsTables e ∧ ∀ tx row, c = .insert tx id row → ∃ f, (e.insert tx id row).2.2 = .error f

namespace Engine

variable {e e' : Engine} {rid : RecordId} {table : TableFile} {events : List Event}

/-- **A place stays bare as long as no row is put into its table.** -/
theorem Bare.call {c : Call} (hb : e.Bare rid) (hs : Sound e)
    (ht : e.catalog.table? rid.page.table = some table) (hc : c.PutsNothing rid.page.table e)
    (h : e.call c = (e', events)) : e'.Bare rid := by
  obtain ⟨hkeeps, hfails⟩ := hc
  cases does_of_call hs.proper hkeeps h with
  | fetched hf => exact hb.sameRows (hf.sound hs).2
  | explored hx => exact hb.sameRows (hx.sound hs).2
  | @inserted tx id row other pid e₁ frame page changed ho hroom hh hins hok =>
    have hid : id ≠ rid.page.table := by
      rintro rfl
      obtain ⟨f, hf⟩ := hfails tx row rfl
      rw [hok] at hf
      cases hf
    obtain ⟨hs₁, hsame⟩ := (hroom.explored ho).sound hs
    have hchanged := @Page.Changed.inserted _ row _ _ hins
    refine (hb.sameRows hsame).changePage hs₁ hh.cached hchanged (Or.inl ?_)
    rintro rfl
    apply hid
    rw [(hs₁.changePage tx hh.cached hchanged).1, hroom.own, (hs.tables ho).1]
  | deleted hrid hf hh hdel =>
    obtain ⟨hs₁, hsame⟩ := hf.sound hs
    exact (hb.sameRows hsame).changePage hs₁ hh.cached (.deleted hrid hdel) (Or.inr rfl)
  | settled locks hsettles =>
    have hb₁ := hb.settles hs hsettles
    exact ⟨hb₁.content_eq, hb₁.stored_eq⟩
  | recached hr => exact hb.recached hr
  | created _ hcreated =>
    obtain ⟨hstored, hcontent⟩ := hcreated.rows ht
    exact ⟨hcontent.trans hb.content_eq, hstored.trans hb.stored_eq⟩

/-! ## 7. Growing once -/

/-- **A table has as many pages as before a call**, or the call was an insert and made it grow. -/
theorem Serving.pageCount_of_call {c : Call} (hs : Serving e table) (hc : c.KeepsTables e)
    (h : e.call c = (e', events)) : table.pageCount e'.disk = table.pageCount e.disk
      ∨ e.Grows e' table ∧ ∃ tx row, c = .insert tx table.id row := by
  rcases lengths_of_call hs.sound hc h with hsame | ⟨tx, grown, row, rfl, hgrows⟩
  · exact Or.inl (by rw [TableFile.pageCount, hsame, TableFile.pageCount])
  · by_cases hid : table.id = grown.id
    · have ht := hs.registered
      rw [hid, hgrows.registered] at ht
      cases ht
      exact Or.inr ⟨hgrows, tx, row, rfl⟩
    · have hpath := hs.sound.path_ne hgrows.registered hs.registered hid
      exact Or.inl (TableFile.pageCount_congr (hgrows.appends.content_of_ne hpath))

/-- The new page of a table is bare after an insert that failed. -/
theorem Grows.bare (hg : e.Grows e' table) (hs : Sound e) (hsame : SameRows e e') (slot : Nat) :
    e'.Bare ⟨table.pageId (table.pageCount e.disk), slot⟩ := by
  have hindex := table.index_pageId hg.appends.count_lt
  refine Bare.sameRows ⟨Classical.byContradiction fun hne => ?_, ?_⟩ hsame
  · exact Nat.lt_irrefl _ (hindex ▸ hs.lt_of_content hg.registered hne)
  · unfold stored storedPage
    rw [show (table.pageId (table.pageCount e.disk)).table = table.id from rfl, hg.registered,
      Option.bind_some, TableFile.pageAt_of_le (Nat.le_of_eq hindex.symm)]
    rfl

/-- A table with a bare place on one of its pages does not grow. -/
theorem Bare.not_grows {n : Nat} (hb : e.Bare ⟨table.pageId n, 0⟩) (hs : Serving e table)
    (hn : n < table.pageCount e.disk) (hlt : n < UInt32.size) : ¬ e.Grows e' table := by
  intro hg
  have hvacant : e.Vacant table ⟨table.pageId n, 0⟩ :=
    ⟨rfl, (table.index_pageId hlt).symm ▸ hn, (hs.sound.tables hs.registered).2, hb.content_eq⟩
  exact hg.full _ hvacant

/-- A table has grown by one page, which is bare. -/
structure GrownBare (start e : Engine) (table : TableFile) : Prop where
  count_eq : table.pageCount e.disk = table.pageCount start.disk + 1
  count_lt : table.pageCount start.disk < UInt32.size
  bare : e.Bare ⟨table.pageId (table.pageCount start.disk), 0⟩

end Engine

open Engine

/-- **A table grows once** at most as long as no row is put into it, whatever else is called. -/
theorem Run.grows_once {start e : Engine} {table : TableFile} {log : List Event}
    (hs : Serving start table) (h : Run (fun e c => c.PutsNothing table.id e) start e log) :
    Serving e table ∧ (table.pageCount e.disk = table.pageCount start.disk
      ∨ start.GrownBare e table) := by
  induction h with
  | nil => exact ⟨hs, Or.inl rfl⟩
  | @call e e' log events c _ hc he ih =>
    obtain ⟨hserving, hcount⟩ := ih
    refine ⟨hserving.call hc.1 he, ?_⟩
    rcases hserving.pageCount_of_call hc.1 he with hsame | ⟨hgrows, tx, row, rfl⟩
    · rcases hcount with hcount | hgrown
      · exact Or.inl (hsame.trans hcount)
      · exact Or.inr ⟨hsame.trans hgrown.count_eq, hgrown.count_lt,
          hgrown.bare.call hserving.sound hserving.registered hc he⟩
    · rcases hcount with hcount | hgrown
      · -- the insert failed, so that its new page is bare
        rcases hi : e.insert tx table.id row with ⟨e₁, stored, r⟩
        obtain ⟨f, hf⟩ := hc.2 tx row rfl
        simp only [Engine.call, hi] at he hf
        cases he
        subst hf
        rcases insert_cases hserving.sound.proper hi with ⟨hx, -⟩
          | ⟨_, _, _, _, _, _, -, -, -, -, -, -, -, hr⟩
        · have hbare := hgrows.bare hserving.sound (hx.sound hserving.sound).2 0
          rw [hcount] at hbare
          refine Or.inr ⟨?_, hcount ▸ hgrows.appends.count_lt, hbare⟩
          rw [hgrows.appends.pageCount_eq (hserving.sound.tables hserving.registered).2, hcount]
        · cases hr
      · refine absurd hgrows (hgrown.bare.not_grows hserving ?_ hgrown.count_lt)
        rw [hgrown.count_eq]
        exact Nat.lt_succ_self _

theorem Engine.whole_new (config : Config) (disk : Disk) :
    Whole { config := config, disk := disk } := fun _ _ ht => by cases ht

/-- **The files of registered tables consist of whole pages** in every state that is reached while
tables stay registered. -/
theorem Run.whole {config : Config} {disk : Disk} {e : Engine} {log : List Event}
    (h : Run (fun e c => c.KeepsTables e) { config := config, disk := disk } e log) : Whole e := by
  induction h with
  | nil => exact whole_new config disk
  | call c hr hc he ih =>
    exact ih.call (hr.sound_of_keepsTables (sound_new config disk))
      (Run.orderly (orderly_new config disk) hr) hc he

end RowStore
