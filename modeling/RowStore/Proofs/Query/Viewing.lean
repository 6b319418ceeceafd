import RowStore.Proofs.Query.Opening
import RowStore.Proofs.Rereading
import RowStore.Proofs.Uncut
import RowStore.Proofs.Views

/-!
# What a store shows to queries

A query sees of every page the rows of the cached page, or those on disk where none is cached
(`Engine.seenRows`), uncut as they are there.  A page that is asked for may make a clean one leave,
and this one is seen as it is on disk from then on; that makes no difference to a table whose clean
pages have the rows that stand on disk (`Engine.Faithful`), as they have unless a text was too long
for its column (`Snug.intact`).

So requests about such tables are answered by what the store shows (`Engine.honest_answers`), and an
insert, into one of them or into another table, changes the answer to no request but those that meet
the new row: for its page, or for the number of pages when the row made the table longer
(`Request.Meets`, `Engine.Answers.insert`).

All of this is said of one table at a time (`Engine.Plain`), whatever else the cache may have.
-/

namespace RowStore

/-- **A request meets a row** if it is for the page of the row, or counts the pages of its table
after the row went behind the last one that was counted before. -/
def Request.Meets (rid : RecordId) : Request → Prop
  | .count table n => rid.page.table = table.id ∧ n ≤ rid.page.index.toNat
  | .page _ table i _ => rid.page = table.pageId i

/-- The table that a request is about. -/
def Request.table : Request → TableFile
  | .count table _ => table
  | .page _ table _ _ => table

namespace Engine

variable {e e' : Engine} {tx : Tx} {pid : PageId} {frame : Frame} {page : Page} {rid : RecordId}
  {table t : TableFile} {id : TableId} {row stored : Row} {request : Request} {disk : Disk}

/-! ## 1. Rows that are seen -/

/-- The rows of the page on disk. -/
def storedRows (e : Engine) (pid : PageId) : List Row :=
  ((e.storedPage pid).map Page.rows).getD []

/-- The rows of the page through the cache. -/
def seenRows (e : Engine) (pid : PageId) : List Row :=
  ((e.seenPage pid).map Page.rows).getD []

/-- **What the store shows.** -/
def view (e : Engine) : View where
  count table := table.pageCount e.disk
  rows table i := e.seenRows (table.pageId i)

/-- **The clean cached pages of the table have the rows that stand on disk.** -/
def Faithful (e : Engine) (table : TableFile) : Prop :=
  ∀ ⦃pid : PageId⦄ ⦃frame : Frame⦄, e.cache.find? pid = some frame → pid.table = table.id →
    frame.page.dirty = none → frame.page.rows = e.storedRows pid

/-- **The cached pages of a registered table are its pages**: they have its schema, and those that
are clean have the rows that stand on disk. -/
structure Intact (e : Engine) (table : TableFile) : Prop where
  registered : e.catalog.table? table.id = some table
  carries : e.Carries table.id table.schema
  faithful : e.Faithful table

/-- **The table is shown rightly, and uncut**: what its clean pages show does not depend on whether
they are cached. -/
structure Plain (e : Engine) (table : TableFile) : Prop where
  shows : e.Shows table
  faithful : e.Faithful table

theorem Legible.plain {dir : Directory} (hl : Legible dir e) (h : e.Intact table) :
    e.Plain table :=
  ⟨hl.shows h.registered h.carries, h.faithful⟩

theorem seenRows_of_cached (hf : e.cache.find? pid = some frame) :
    e.seenRows pid = frame.page.rows := by
  unfold seenRows seenPage
  rw [hf]
  rfl

theorem seenRows_of_not_cached (hn : e.cache.find? pid = none) :
    e.seenRows pid = e.storedRows pid := by
  unfold seenRows seenPage
  rw [hn]
  rfl

/-- Where no changed page is cached, the rows on disk are seen. -/
theorem Faithful.seenRows_eq (hf : e.Faithful table) (hown : pid.table = table.id)
    (hclean : ∀ frame, e.cache.find? pid = some frame → frame.page.dirty = none) :
    e.seenRows pid = e.storedRows pid := by
  cases hc : e.cache.find? pid with
  | none => exact seenRows_of_not_cached hc
  | some frame => rw [seenRows_of_cached hc, hf hc hown (hclean frame hc)]

theorem storedRows_of_readPage (h : e.readPage pid = .ok page) : e.storedRows pid = page.rows := by
  obtain ⟨table, ht, hr⟩ := readPage_eq_ok_iff.mp h
  unfold storedRows storedPage
  simp only [ht, Option.bind_some, hr.pageAt.1, Option.map_some, Option.getD_some]

/-- **Where every row is as it is stored**, every registered table is intact. -/
theorem Snug.intact (hn : Snug e) (htidy : Tidy e) (hs : Sound e)
    (ht : e.catalog.table? table.id = some table) : e.Intact table := by
  have hshown : ∀ {pid : PageId} {frame : Frame}, e.cache.find? pid = some frame →
      pid.table = table.id → table.Shapes frame.page
        ∧ pid.index.toNat < table.pageCount e.disk := by
    intro pid frame hc hown
    obtain ⟨found, hfound, hshape, hlt, -⟩ := hs.lodged hc
    obtain rfl : table = found := Option.some.inj (ht.symm.trans (hown ▸ hfound))
    exact ⟨hshape, hlt⟩
  refine ⟨ht, fun pid frame hc hown => (hshown hc hown).1.schema_eq, fun pid frame hc hown hd => ?_⟩
  obtain ⟨hshape, hlt⟩ := hshown hc hown
  obtain ⟨page, hpage⟩ := TableFile.pageAt_of_lt (hs.tables ht).2 hown hlt
  obtain ⟨hshape', hpid, -⟩ := TableFile.shapes_of_pageAt hpage
  have hstored : e.storedPage pid = some page := by
    rw [storedPage, hown, ht]
    exact hpage
  have hcells : ∀ slot, page.cells slot = frame.page.cells slot := by
    intro slot
    rw [hs.clean hc hd, stored, hstored]
    rfl
  have hsame : page.asStored = frame.page.asStored :=
    hshape.wellFormed.asStored_congr hshape'.wellFormed (hpid.trans (hs.proper.keyed hc).symm)
      (hshape'.schema_eq.trans hshape.schema_eq.symm)
      (hshape'.size_eq.trans hshape.size_eq.symm) hcells
  calc frame.page.rows
      = frame.page.asStored.rows := by
        rw [Page.rows_asStored, (hn pid frame hc).rows]
    _ = page.rows := by rw [← hsame, htidy pid page hstored]
    _ = e.storedRows pid := by
        rw [storedRows, hstored]
        rfl

/-- **The table is shown as it was**, rightly and uncut. -/
structure ShowsAlike (table : TableFile) (e e' : Engine) : Prop where
  plain : e'.Plain table
  seenRows_eq : ∀ pid, pid.table = table.id → e'.seenRows pid = e.seenRows pid

theorem ShowsAlike.trans {e₁ : Engine} (h : ShowsAlike table e e₁)
    (h' : ShowsAlike table e₁ e') : ShowsAlike table e e' :=
  ⟨h'.plain, fun pid hown => (h'.seenRows_eq pid hown).trans (h.seenRows_eq pid hown)⟩

/-- The page that a step of a request makes leave is seen as it is on disk, which is the same. -/
theorem FetchStep.showsAlike (h : FetchStep tx e e') (hp : e.Plain table) :
    ShowsAlike table e e' := by
  have hr := h.recached hp.shows.proper
  have hstored : ∀ pid, e'.storedRows pid = e.storedRows pid := fun pid => by
    unfold storedRows
    rw [storedPage_congr hr.catalog_eq (fun _ => by rw [hr.disk_eq]) pid]
  have hfaithful : e'.Faithful table := by
    intro pid frame hc hown hd
    rw [hstored]
    rcases hr.find? hc with hold | hread
    · exact hp.faithful hold hown hd
    · exact (storedRows_of_readPage hread).symm
  refine ⟨⟨hp.shows.recached hr, hfaithful⟩, fun pid hown => ?_⟩
  by_cases hd : ∃ frame, e.cache.find? pid = some frame ∧ frame.page.dirty ≠ none
  · obtain ⟨frame, hc, hne⟩ := hd
    rw [seenRows_of_cached hc, seenRows_of_cached (h.find?_dirty hp.shows.proper hc hne)]
  · have hclean : ∀ frame, e.cache.find? pid = some frame → frame.page.dirty = none :=
      fun frame hc => Classical.byContradiction fun hne => hd ⟨frame, hc, hne⟩
    rw [hp.faithful.seenRows_eq hown hclean, ← hstored]
    refine hfaithful.seenRows_eq hown fun frame hc => ?_
    rcases hr.find? hc with hold | hread
    · exact hclean frame hold
    · exact (readPage_eq_ok hread).2

/-- **Requests change nothing that is seen.** -/
theorem Fetches.showsAlike (h : Fetches tx e e') (hp : e.Plain table) :
    ShowsAlike table e e' := by
  induction h with
  | refl => exact ⟨hp, fun _ _ => rfl⟩
  | tail _ hstep ih => exact ih.trans (hstep.showsAlike ih.plain)

/-- Where the same rows stand on disk, the same are seen. -/
theorem ShowsAlike.of_stored (hp : e.Plain table) (hs : Shows { e with disk := disk } table)
    (h : ∀ pid, pid.table = table.id → storedRows { e with disk := disk } pid = e.storedRows pid) :
    ShowsAlike table e { e with disk := disk } := by
  refine ⟨⟨hs, fun pid frame hc hown hd => ?_⟩, fun pid hown => ?_⟩
  · exact (hp.faithful hc hown hd).trans (h pid hown).symm
  · cases hc : e.cache.find? pid with
    | some frame =>
      rw [seenRows_of_cached hc, seenRows_of_cached (e := { e with disk := disk }) hc]
    | none =>
      rw [seenRows_of_not_cached hc, seenRows_of_not_cached (e := { e with disk := disk }) hc,
        h pid hown]

theorem storedRows_own (hs : e.Shows table) (hown : pid.table = table.id) :
    e.storedRows pid = ((table.pageAt e.disk pid).map Page.rows).getD [] := by
  unfold storedRows storedPage
  rw [hown, hs.registered]
  rfl

/-- A change of other files shows the same rows. -/
theorem ShowsAlike.elsewhere (hp : e.Plain table)
    (h : disk.content table.path = e.disk.content table.path) :
    ShowsAlike table e { e with disk := disk } := by
  obtain ⟨hs, -⟩ := hp.shows.elsewhere h
  refine .of_stored hp hs fun pid hown => ?_
  rw [storedRows_own hs hown, storedRows_own hp.shows hown, TableFile.pageAt_congr h]

/-- An empty page behind the last one shows no row. -/
theorem ShowsAlike.append (hp : e.Plain table) (ha : table.Appends e.disk disk) :
    ShowsAlike table e { e with disk := disk } := by
  obtain ⟨hs, -⟩ := hp.shows.append ha
  refine .of_stored hp hs fun pid hown => ?_
  rw [storedRows_own hs hown, storedRows_own hp.shows hown]
  by_cases hnew : pid = table.pageId (table.pageCount e.disk)
  · obtain ⟨blank, hblank, hrow⟩ := ha.pageAt_new hp.shows.roomy
    have hrows : blank.rows = [] := by
      refine List.eq_nil_iff_forall_not_mem.mpr fun row hm => ?_
      obtain ⟨slot, hr⟩ := (Page.mem_rows_iff row).mp hm
      rw [hrow] at hr
      cases hr
    rw [hnew, hblank, Option.map_some, Option.getD_some, hrows,
      TableFile.pageAt_of_le (Nat.le_of_eq (table.index_pageId ha.count_lt).symm)]
    rfl
  · rw [ha.pageAt_of_ne hp.shows.roomy hnew]

/-- **A search for room changes nothing that is seen**, also where it makes a page, and no number of
pages but that of its table. -/
theorem Explored.showsAlike (h : Explored tx table.id e e') (hs : e.Shows table)
    (hp : e.Plain t) : ShowsAlike t e e'
      ∧ (t.id ≠ table.id → t.pageCount e'.disk = t.pageCount e.disk) := by
  refine h.keeps (P := fun d => ShowsAlike t e d
    ∧ (t.id ≠ table.id → t.pageCount d.disk = t.pageCount e.disk)) hs ?fetch ?append ?files
    ⟨⟨hp, fun _ _ => rfl⟩, fun _ => rfl⟩
  case fetch =>
    rintro d d' hf ⟨halike, hcount⟩
    exact ⟨halike.trans (hf.showsAlike halike.plain), hf.same.2 ▸ hcount⟩
  case append =>
    rintro d disk hsd ha ⟨halike, hcount⟩
    by_cases hid : t.id = table.id
    · obtain rfl : t = table :=
        Option.some.inj ((hid ▸ halike.plain.shows.registered).symm.trans hsd.registered)
      exact ⟨halike.trans (.append halike.plain ha), fun hne => absurd rfl hne⟩
    · have hcontent := ha.content_of_ne (hsd.path_ne halike.plain.shows hid)
      exact ⟨halike.trans (.elsewhere halike.plain hcontent), fun hne =>
        (TableFile.pageCount_congr hcontent).trans (hcount hne)⟩
  case files =>
    rintro d disk hfiles ⟨halike, hcount⟩
    have hcontent := content_of_files hfiles t.path
    exact ⟨halike.trans (.elsewhere halike.plain hcontent), fun hne =>
      (TableFile.pageCount_congr hcontent).trans (hcount hne)⟩

/-- A change of a page is seen on this page only. -/
theorem Plain.changePage {values : Option (List Value)} (hp : e.Plain table) (tx : Tx)
    (hf : e.cache.find? pid = some frame) (hc : frame.page.Changed page rid values) :
    (e.changePage tx pid frame page).Plain table
      ∧ ∀ p, p ≠ pid → (e.changePage tx pid frame page).seenRows p = e.seenRows p := by
  refine ⟨⟨(hp.shows.changePage tx hf hc).1, fun p found hfound hown hd => ?_⟩, fun p hne => ?_⟩
  · rw [find?_changePage] at hfound
    split at hfound
    · cases hfound
      cases hd
    · exact hp.faithful hfound hown hd
  · unfold seenRows seenPage
    rw [find?_changePage, if_neg hne]
    rfl

/-- **What an insert changes of what is seen of a table**: rows of the page where the new row is,
and the number of pages if it is the table that the row was put into. -/
theorem Plain.insert {pids : List PageId} (hp : e.Plain t) (hs : e.Shows table)
    (hi : e.insert tx table.id row = (e', stored, .ok pids)) (hrid : stored.rid = some rid) :
    e'.Plain t ∧ (∀ p, p.table = t.id → p ≠ rid.page → e'.seenRows p = e.seenRows p)
      ∧ (t.id ≠ table.id → t.pageCount e'.disk = t.pageCount e.disk) := by
  obtain ⟨rid', e₁, frame, page, rfl, -, -, hx, hf, hc, rfl⟩ := hs.insert_cases hi
  obtain rfl : rid' = rid := Option.some.inj hrid
  obtain ⟨halike, hcount⟩ := hx.showsAlike hs hp
  obtain ⟨hp', hrows⟩ := halike.plain.changePage tx hf hc
  exact ⟨hp', fun p hown hne => (hrows p hne).trans (halike.seenRows_eq p hown), hcount⟩

/-! ## 2. Requests -/

/-- **The request is answered by what the store shows.** -/
def Tells (e : Engine) : Request → Prop
  | .count table n => table.pageCount e.disk = n
  | .page _ table i rows => e.seenRows (table.pageId i) = rows

/-- The table is shown rightly and uncut, and so it is answered. -/
structure Answers (e : Engine) (request : Request) : Prop where
  plain : e.Plain request.table
  tells : e.Tells request

theorem Answers.fetches (h : e.Answers request) (hf : Fetches tx e e') : e'.Answers request := by
  have halike := hf.showsAlike h.plain
  refine ⟨halike.plain, ?_⟩
  have htells := h.tells
  cases request with
  | count table n =>
    unfold Tells at htells ⊢
    rwa [hf.same.2]
  | page _ table i rows => exact (halike.seenRows_eq (table.pageId i) rfl).trans htells

/-- A request that the store tells the answer of is answered so, or fails. -/
theorem Answers.answered (h : e.Answers request) :
    ∃ tx e' r, request.Answered e e' r ∧ Fetches tx e e' := by
  obtain ⟨hp, htells⟩ := h
  cases request with
  | count table n =>
    cases hc : table.countPages e.disk with
    | error f => exact ⟨⟨0⟩, e, _, .uncounted hc, .refl⟩
    | ok count =>
      obtain rfl : count = n := (TableFile.eq_of_countPages hc).trans htells
      exact ⟨⟨0⟩, e, _, .counted hc, .refl⟩
  | page tx table i rows =>
    rcases hfetch : e.fetch tx .read (table.pageId i) with ⟨e', r⟩
    have hfetches := fetch_fetches hfetch
    cases hu : r.bind Frame.use with
    | error f => exact ⟨tx, e', _, .unfetched hfetch hu, hfetches⟩
    | ok page =>
      cases r with
      | error f => cases hu
      | ok frame =>
        have hpage : frame.page = page := Frame.page_of_use hu
        have hrows : page.rows = rows := by
          rw [← hpage, ← seenRows_of_cached (fetch_ok hfetch).cached,
            (hfetches.showsAlike hp).seenRows_eq (table.pageId i) rfl]
          exact htells
        exact ⟨tx, e', _, .fetched hfetch hu hrows, hfetches⟩

/-- **Where the store tells the answers, requests are honest.** -/
theorem honest_answers (reqs : List Request) :
    Honest reqs fun e => ∀ request ∈ reqs, e.Answers request := by
  intro request hm e hanswers
  obtain ⟨tx, e', r, ha, hfetch⟩ := (hanswers request hm).answered
  exact ⟨e', r, ha, fun other hm => (hanswers other hm).fetches hfetch⟩

/-- **An insert changes no answer but to requests that meet the new row.** -/
theorem Answers.insert {pids : List PageId} (h : e.Answers request) (hs : e.Shows table)
    (hi : e.insert tx table.id row = (e', stored, .ok pids)) (hrid : stored.rid = some rid)
    (hmeets : ¬request.Meets rid) : e'.Answers request := by
  obtain ⟨hp', hrows, hcounts⟩ := h.plain.insert hs hi hrid
  refine ⟨hp', ?_⟩
  have htells := h.tells
  cases request with
  | page _ t i rows => exact (hrows _ rfl fun he => hmeets he.symm).trans htells
  | count t n =>
    by_cases hid : t.id = table.id
    · -- the number of pages of the table itself grows only if the row goes behind the last one
      obtain ⟨rid', rfl, hfit, -⟩ := hs.insert hi
      obtain rfl : rid' = rid := Option.some.inj hrid
      obtain rfl : t = table :=
        Option.some.inj ((hid ▸ h.plain.shows.registered).symm.trans hs.registered)
      by_cases hvacant : ∃ r, e.Vacant t r
      · exact (hfit.reused hvacant).2.2.trans htells
      · obtain ⟨hown, hindex, -⟩ := hfit.appended hvacant
        exact absurd ⟨hown, (hindex.trans htells).ge⟩ hmeets
    · exact (hcounts hid).trans htells

end Engine

/-! ## 3. Plans -/

/-- The plan scans tables of this kind only. -/
def Plan.Over (P : TableFile → Prop) : Plan → Prop
  | rows .. => True
  | scan _ table _ => P table
  | filter _ input | aggregate _ input | insert _ _ input | delete _ input => input.Over P
  | join _ left right => left.Over P ∧ right.Over P

theorem Plan.Over.mono {P Q : TableFile → Prop} (hpq : ∀ {t : TableFile}, P t → Q t) :
    ∀ {p : Plan}, p.Over P → p.Over Q
  | .rows .., h => h
  | .scan .., h => hpq h
  | .filter _ input, h => mono hpq (p := input) h
  | .aggregate _ input, h => mono hpq (p := input) h
  | .insert _ _ input, h => mono hpq (p := input) h
  | .delete _ input, h => mono hpq (p := input) h
  | .join _ left right, h => ⟨mono hpq (p := left) h.1, mono hpq (p := right) h.2⟩

/-- The requests of a plan over what a store shows are answered by it. -/
theorem Plan.tells_view {e : Engine} : ∀ {p : Plan}, ∀ request ∈ p.requests e.view,
    e.Tells request
  | .rows .., _, hm => absurd hm List.not_mem_nil
  | .scan tx table _, request, hm => by
    rcases List.mem_cons.mp hm with rfl | hm
    · exact rfl
    · obtain ⟨i, -, rfl⟩ := List.mem_map.mp hm
      exact rfl
  | .filter _ input, request, hm => tells_view (p := input) request hm
  | .aggregate _ input, request, hm => tells_view (p := input) request hm
  | .insert _ _ input, request, hm => tells_view (p := input) request hm
  | .delete _ input, request, hm => tells_view (p := input) request hm
  | .join _ left right, request, hm => by
    rcases List.mem_append.mp hm with hm | hm
    · exact tells_view (p := left) request hm
    · exact tells_view (p := right) request hm

/-- A plan requests nothing but of the tables that it scans. -/
theorem Plan.Over.requests {P : TableFile → Prop} {v : View} {request : Request} :
    ∀ {p : Plan}, p.Over P → request ∈ p.requests v → P request.table
  | .rows .., _, hm => absurd hm List.not_mem_nil
  | .scan tx t _, h, hm => by
    rcases List.mem_cons.mp hm with rfl | hm
    · exact h
    · obtain ⟨i, -, rfl⟩ := List.mem_map.mp hm
      exact h
  | .filter _ input, h, hm => requests (p := input) h hm
  | .aggregate _ input, h, hm => requests (p := input) h hm
  | .insert _ _ input, h, hm => requests (p := input) h hm
  | .delete _ input, h, hm => requests (p := input) h hm
  | .join _ left right, h, hm => by
    rcases List.mem_append.mp hm with hm | hm
    · exact requests (p := left) h.1 hm
    · exact requests (p := right) h.2 hm

end RowStore
