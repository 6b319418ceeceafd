import RowStore.Proofs.Query.Restarting
import RowStore.Proofs.Query.Typing
import RowStore.Proofs.Rereading

/-!
# Deleting what filters let through

A delete takes rows off the very pages that the scan below it is walking over.  The scan takes all
rows of a page before the first of them is deleted, and then the page is fetched again, by another
lock and perhaps from disk, for every row that goes.  That every selected row goes and no other, and
that each counts once, rests on this:

* a row that is deleted lies on a page that the scan has come to, and what is offered of any other
  page is what was offered when the delete began (`Removes.offers`);
* so page after page is handed out as the delete found it, and what was selected of the pages so far
  is gone (`Swept`).

Main statement: `Plan.delete_selected`.
-/

namespace RowStore

/-! ## 1. Rows that are selected -/

/-- The record ids of the rows that are selected. -/
def selectedIds (selects : Row → Bool) (rows : List Row) : List RecordId :=
  (rows.filter selects).filterMap Row.rid

section Selected

variable {selects : Row → Bool}

theorem mem_selectedIds {rows : List Row} {rid : RecordId} : rid ∈ selectedIds selects rows
    ↔ ∃ row ∈ rows, selects row = true ∧ row.rid = some rid := by
  simp only [selectedIds, List.mem_filterMap, List.mem_filter, and_assoc]

theorem selectedIds_append (rows more : List Row) : selectedIds selects (rows ++ more)
    = selectedIds selects rows ++ selectedIds selects more := by
  rw [selectedIds, List.filter_append, List.filterMap_append]
  rfl

theorem selectedIds_cons_of_pos {row : Row} {rid : RecordId} (rows : List Row)
    (hs : selects row = true) (hrid : row.rid = some rid) :
    selectedIds selects (row :: rows) = rid :: selectedIds selects rows := by
  rw [selectedIds, List.filter_cons_of_pos hs, List.filterMap_cons, hrid]
  rfl

theorem selectedIds_cons_of_neg {row : Row} (rows : List Row) (hs : ¬selects row = true) :
    selectedIds selects (row :: rows) = selectedIds selects rows := by
  rw [selectedIds, List.filter_cons_of_neg hs]
  rfl

end Selected

/-- Hand on the rows that are selected, and leave out the others. -/
def Consumer.passing {β : Type} (selects : Row → Bool) (k : Consumer β) : Consumer β :=
  fun acc row e => if selects row then k acc row e else (e, acc, .more)

theorem Consumer.passing_passing {β : Type} (outer inner : Row → Bool) (k : Consumer β) :
    (k.passing outer).passing inner = k.passing fun row => outer row && inner row := by
  funext acc row e
  unfold passing
  cases ho : outer row <;> cases hi : inner row <;> simp [ho, hi]

/-! ## 2. Removing entries -/

namespace Engine

variable {e e' e₁ : Engine} {tx : Tx} {pid : PageId} {frame : Frame} {page : Page} {row : Row}
  {rid : RecordId} {rids rids' : List RecordId} {table : TableFile}

/-- **What removing entries does.**  A table that is shown rightly still is, and its content is the
old one without these entries; and a page that has none of them offers what it offered before. -/
structure Removes (e : Engine) (rids : List RecordId) (e' : Engine) : Prop where
  catalog_eq : e'.catalog = e.catalog
  disk_eq : e'.disk = e.disk
  proper : e.cache.Proper → e'.cache.Proper
  shows : ∀ {table : TableFile}, e.Shows table → e'.Shows table
    ∧ ∀ rid, rid.page.table = table.id →
      e'.content rid = if rid ∈ rids then none else e.content rid
  offers : ∀ {pid : PageId} {page : Page}, e.cache.Proper → (∀ rid ∈ rids, rid.page ≠ pid) →
    e'.Offers pid page → e.Offers pid page

/-- Requests remove nothing. -/
theorem Fetches.removes (h : Fetches tx e e') : Removes e [] e' where
  catalog_eq := h.same.1
  disk_eq := h.same.2
  proper := h.proper
  shows hs := by
    obtain ⟨hs', hcontent⟩ := hs.fetches h
    exact ⟨hs', fun rid hown => (hcontent rid hown).trans (if_neg List.not_mem_nil).symm⟩
  offers hp _ ho := h.offers hp ho

theorem Removes.refl (e : Engine) : Removes e [] e := @Fetches.removes e e ⟨0⟩ .refl

theorem Removes.trans (h : Removes e rids e₁) (h' : Removes e₁ rids' e') :
    Removes e (rids ++ rids') e' where
  catalog_eq := h'.catalog_eq.trans h.catalog_eq
  disk_eq := h'.disk_eq.trans h.disk_eq
  proper hp := h'.proper (h.proper hp)
  shows hs := by
    obtain ⟨hs₁, hcontent₁⟩ := h.shows hs
    obtain ⟨hs', hcontent⟩ := h'.shows hs₁
    refine ⟨hs', fun rid hown => ?_⟩
    rw [hcontent rid hown, hcontent₁ rid hown]
    by_cases hm : rid ∈ rids
    · rw [if_pos hm, if_pos (List.mem_append_left _ hm), ite_self]
    · rw [if_neg hm]
      simp only [List.mem_append, hm, false_or]
  offers hp hnot ho := by
    have hbefore := h'.offers (h.proper hp)
      (fun rid hm => hnot rid (List.mem_append_right _ hm)) ho
    exact h.offers hp (fun rid hm => hnot rid (List.mem_append_left _ hm)) hbefore

/-- **Taking a row off its page** removes its entry. -/
theorem changePage_removes (tx : Tx) (hf : e.cache.find? rid.page = some frame)
    (hrid : row.rid = some rid) (hd : frame.page.delete row = .ok page) :
    Removes e [rid] (e.changePage tx rid.page frame page) where
  catalog_eq := rfl
  disk_eq := rfl
  proper hp := by
    have hsame := (Page.Changed.deleted hrid hd).same.2
    exact hp.insert (hsame.pid_eq.trans (hp.keyed hf))
  shows hs := by
    obtain ⟨hs', hcontent⟩ := hs.changePage tx hf (.deleted hrid hd)
    refine ⟨hs', fun r hown => ?_⟩
    rw [hcontent r hown]
    simp only [List.mem_singleton, Option.map_none]
  offers {pid found} _ hnot ho := by
    have hne : pid ≠ rid.page := (hnot rid (List.mem_singleton_self rid)).symm
    unfold Offers at ho ⊢
    rwa [find?_changePage, if_neg hne] at ho

/-- **A delete that goes through removes the entry that it is asked to remove.** -/
theorem delete_removes {pids : List PageId} (hp : e.cache.Proper)
    (h : e.delete tx row = (e', .ok pids)) : ∃ rid, row.rid = some rid ∧ Removes e [rid] e' := by
  rcases delete_cases hp h with ⟨-, f, hr⟩ | ⟨rid, e₁, frame, page, hrid, hf, hh, hd, rfl, -⟩
  · cases hr
  · exact ⟨rid, hrid, hf.removes.trans (changePage_removes tx hh.cached hrid hd)⟩

/-! ## 3. Page after page -/

/-- The change that a delete applies to every row. -/
def deleteRow (tx : Tx) (row : Row) (e : Engine) : Engine × Except Failure Unit :=
  match e.delete tx row with
  | (e, .ok _) => (e, .ok ())
  | (e, .error f) => (e, .error f)

variable {selects : Row → Bool}

/-- **Deleting the selected ones of some rows** fails, or removes the entries of all of them. -/
theorem feed_deleting : ∀ {rows left : List Row} {n m : Nat} {e e' : Engine} {signal : Signal},
    e.cache.Proper →
    ((Consumer.changing (deleteRow tx)).passing selects).feed rows n e = (left, e', m, signal) →
    (∃ f, signal = .fail f)
      ∨ signal = .more ∧ m = n + rows.countP selects ∧ Removes e (selectedIds selects rows) e'
  | [], _, _, _, _, _, _, _, h => by
    cases h
    exact Or.inr ⟨rfl, rfl, .refl _⟩
  | row :: rows, left, n, m, e, e', signal, hp, h => by
    unfold Consumer.feed Consumer.passing at h
    by_cases hs : selects row = true
    · rw [if_pos hs] at h
      unfold Consumer.changing deleteRow at h
      rcases hd : e.delete tx row with ⟨e₁, f | pids⟩
      · rw [hd] at h
        cases h
        exact Or.inl ⟨f, rfl⟩
      · rw [hd] at h
        obtain ⟨rid, hrid, hone⟩ := delete_removes hp hd
        refine (feed_deleting (hone.proper hp) h).imp_right ?_
        rintro ⟨hsignal, hm, hrest⟩
        refine ⟨hsignal, ?_, ?_⟩
        · rw [hm, List.countP_cons_of_pos hs, Nat.add_assoc, Nat.add_comm 1]
        · rw [selectedIds_cons_of_pos rows hs hrid]
          exact hone.trans hrest
    · rw [if_neg hs] at h
      rw [List.countP_cons_of_neg hs, selectedIds_cons_of_neg rows hs]
      exact feed_deleting hp h

/-- **The page as a transaction is handed it** after some entries were removed. -/
def HandsOver (e : Engine) (tx : Tx) (rids : List RecordId) (pid : PageId) (page : Page) : Prop :=
  ∃ e₁ e₂ frame, Removes e rids e₁ ∧ e₁.fetch tx .read pid = (e₂, .ok frame)
    ∧ frame.use = .ok page

/-- **The `n` pages of a table from number `first` on were gone through**: each was handed over when
what is selected of the pages before it had been removed, each is what the store offered before
that, and what is selected of all of them was removed. -/
structure Swept (tx : Tx) (table : TableFile) (selects : Row → Bool) (first n : Nat) (e : Engine)
    (pages : List Page) (e' : Engine) : Prop where
  length_eq : pages.length = n
  index_lt : first + n < UInt32.size
  offers : ∀ j page, pages[j]? = some page → e.Offers (table.pageId (first + j)) page
  handed : ∀ j page, pages[j]? = some page →
    e.HandsOver tx (selectedIds selects ((pages.take j).flatMap Page.rows))
      (table.pageId (first + j)) page
  removes : Removes e (selectedIds selects (pages.flatMap Page.rows)) e'

theorem Swept.nil {first : Nat} (hi : first < UInt32.size) :
    Swept tx table selects first 0 e [] e where
  length_eq := rfl
  index_lt := hi
  offers j page hj := by simp at hj
  handed j page hj := by simp at hj
  removes := .refl e

/-- The page that a request hands over is one that was offered. -/
theorem offers_of_fetch {e₁ : Engine} {access : Access} (hp : e.cache.Proper)
    (hf : e.fetch tx access pid = (e₁, .ok frame)) (hu : frame.use = .ok page) :
    e.Offers pid page :=
  (fetch_fetches hf).offers hp (Or.inl ⟨frame, (fetch_ok hf).cached, Frame.page_of_use hu⟩)

/-- A page that is offered is not the last that 32 bits can name. -/
theorem Shows.index_lt {i : Nat} (hs : e.Shows table) (hi : i < UInt32.size)
    (ho : e.Offers (table.pageId i) page) : i + 1 < UInt32.size := by
  rw [← table.index_pageId hi]
  rcases ho with ⟨frame, hf, -⟩ | ⟨-, hread⟩
  · obtain ⟨-, -, -, -, hmax⟩ := hs.sound.lodged (find?_only_eq_some_iff.mpr ⟨rfl, hf⟩)
    exact hmax
  · exact index_lt_of_readPage hread

/-- The rows of a page that is offered stand on this page. -/
theorem Shows.page_of_selected (hs : e.Shows table) (hown : pid.table = table.id)
    (ho : e.Offers pid page) (hm : rid ∈ selectedIds selects page.rows) : rid.page = pid := by
  obtain ⟨row, hrow, -, hrid⟩ := mem_selectedIds.mp hm
  obtain ⟨slot, hslot, -⟩ := (hs.shown hown ho).entry_of_mem hrow
  rw [hslot] at hrid
  cases hrid
  rfl

/-- **One page more.**  What is removed from it is on no page behind it, so that those are offered
as they were before. -/
theorem Swept.cons {e₁ e₂ : Engine} {first n : Nat} {pages : List Page} (hs : e.Shows table)
    (hi : first < UInt32.size) (hf : e.fetch tx .read (table.pageId first) = (e₁, .ok frame))
    (hu : frame.use = .ok page) (hone : Removes e₁ (selectedIds selects page.rows) e₂)
    (hrest : Swept tx table selects (first + 1) n e₂ pages e') :
    Swept tx table selects first (n + 1) e (page :: pages) e' := by
  have ho := offers_of_fetch hs.proper hf hu
  have hone : Removes e (selectedIds selects page.rows) e₂ := (fetch_fetches hf).removes.trans hone
  have hnext : ∀ j, first + 1 + j = first + (j + 1) := fun j => by omega
  have hlt : first + (n + 1) < UInt32.size := hnext n ▸ hrest.index_lt
  refine ⟨congrArg (· + 1) hrest.length_eq, hlt, ?offers, ?handed, ?removes⟩
  case offers =>
    intro j found hj
    cases j with
    | zero =>
      cases hj
      exact ho
    | succ j =>
      have hj : pages[j]? = some found := by simpa using hj
      obtain ⟨hlen, -⟩ := List.getElem?_eq_some_iff.mp hj
      rw [hrest.length_eq] at hlen
      have hbehind := hrest.offers j found hj
      rw [hnext] at hbehind
      refine hone.offers hs.proper (fun rid hm he => ?_) hbehind
      -- two pages of the table with different numbers below 2 ^ 32 have different ids
      have hpage := (hs.page_of_selected rfl ho hm).symm.trans he
      have hindex := congrArg (fun p : PageId => p.index.toNat) hpage
      have hj' : first + (j + 1) < UInt32.size := by omega
      simp only [table.index_pageId hi, table.index_pageId hj'] at hindex
      omega
  case handed =>
    intro j found hj
    cases j with
    | zero =>
      cases hj
      exact ⟨e, e₁, frame, .refl e, hf, hu⟩
    | succ j =>
      obtain ⟨a, b, found', hremoved, hfetch, huse⟩ := hrest.handed j found (by simpa using hj)
      rw [hnext] at hfetch
      refine ⟨a, b, found', ?_, hfetch, huse⟩
      rw [List.take_succ_cons, List.flatMap_cons, selectedIds_append]
      exact hone.trans hremoved
  case removes =>
    rw [List.flatMap_cons, selectedIds_append]
    exact hone.trans hrest.removes

end Engine

open Engine

namespace ScanPlace

variable {tx tx' : Tx} {table : TableFile} {selects : Row → Bool}

/-- **A scan that deletes what is selected** on its way fails, or has gone through all its pages. -/
theorem runPages_deleting (n : Nat) {place : ScanPlace} {e : Engine} {count : Nat}
    {pass : Pass ScanPlace Nat} (hs : e.Shows table) (hi : place.nextPage < UInt32.size)
    (h : runPages tx table ((Consumer.changing (deleteRow tx')).passing selects) n place e count
      = pass) :
    (∃ f, pass.verdict = .failed f)
      ∨ ∃ pages, pass.verdict = .ended
        ∧ Swept tx table selects place.nextPage n e pages pass.engine
        ∧ pass.collected = count + (pages.flatMap Page.rows).countP selects := by
  induction n generalizing place e count with
  | zero =>
    subst h
    exact Or.inr ⟨[], rfl, .nil hi, rfl⟩
  | succ n ih =>
    unfold runPages at h
    split at h
    · rename_i e₁ f hf
      subst h
      exact Or.inl ⟨f, rfl⟩
    · rename_i e₁ frame hf
      have hfe := fetch_fetches hf
      split at h
      · rename_i f hu
        subst h
        exact Or.inl ⟨f, rfl⟩
      · rename_i page hu
        rcases hfeed : ((Consumer.changing (deleteRow tx')).passing selects).feed page.rows count e₁
          with ⟨left, e₂, found, signal⟩
        simp only [hfeed] at h
        rcases feed_deleting (hfe.proper hs.proper) hfeed with ⟨f, rfl⟩ | ⟨rfl, hfound, hremoves⟩
        · subst h
          exact Or.inl ⟨f, rfl⟩
        · have hoffers := offers_of_fetch hs.proper hf hu
          have hs₂ := (hremoves.shows (hs.fetches hfe).1).1
          rcases ih hs₂ (hs.index_lt hi hoffers) h with hfail | ⟨pages, hended, hswept, hcount⟩
          · exact Or.inl hfail
          · refine Or.inr ⟨page :: pages, hended, .cons hs hi hf hu hremoves hswept, ?_⟩
            rw [hcount, hfound, List.flatMap_cons, List.countP_append, Nat.add_assoc]

theorem run_deleting {e : Engine} {pass : Pass ScanPlace Nat} (hs : e.Shows table)
    (h : run tx table {} e 0 ((Consumer.changing (deleteRow tx')).passing selects) = pass) :
    (∃ f, pass.verdict = .failed f)
      ∨ ∃ pages, pass.verdict = .ended
        ∧ Swept tx table selects 0 (table.pageCount e.disk) e pages pass.engine
        ∧ pass.collected = (pages.flatMap Page.rows).countP selects := by
  unfold run at h
  rw [if_neg (by simp)] at h
  simp only [Consumer.feed, countPages] at h
  split at h
  · rename_i f _
    subst h
    exact Or.inl ⟨f, rfl⟩
  · rename_i count hcount
    obtain rfl := TableFile.eq_of_countPages hcount
    refine (runPages_deleting _ hs (show 0 < UInt32.size by decide) h).imp_right ?_
    rintro ⟨pages, hended, hswept, hfound⟩
    exact ⟨pages, hended, hswept, hfound.trans (Nat.zero_add _)⟩

end ScanPlace

/-! ## 4. Filters over a scan -/

/-- All of these conditions hold of the row. -/
def Condition.allHold (conditions : List Condition) (row : Row) : Bool :=
  conditions.all fun condition => condition.holds row

section Filter

variable {σ : Type} {input : Source σ} {condition : Condition} {inner opened : σ} {e e' : Engine}

/-- A filter is open once its input is. -/
theorem filter_start (isOpen : Bool) (h : input.start inner e = (opened, e', .ok ())) :
    (Source.filter condition input).start ⟨inner, isOpen⟩ e = (⟨opened, true⟩, e', .ok ()) := by
  unfold Source.filter
  simp only [h]

/-- An open filter makes a pass of its input, and hands on the rows of which its condition holds. -/
theorem filter_run {β : Type} {acc : β} {k : Consumer β} {pass : Pass σ β}
    (h : input.run inner e acc (k.passing condition.holds) = pass) :
    (Source.filter condition input).run ⟨inner, true⟩ e acc k
      = ⟨⟨pass.place, true⟩, pass.engine, pass.collected, pass.verdict⟩ := by
  subst h
  rfl

end Filter

namespace Plan

/-- **A stack of filters** over a plan, the last of them nearest to it. -/
def sifted : List Condition → Plan → Plan
  | [], input => input
  | condition :: conditions, input => filter condition (sifted conditions input)

/-- **A stack of filters over a scan** can be opened anywhere, which does nothing, and then hands on
the rows of the table of which all conditions hold. -/
theorem sifted_scan (tx : Tx) (table : TableFile) (label : String) : ∀ (conditions : List Condition)
    (place : (sifted conditions (scan tx table label)).Place) (e : Engine), ∃ opened,
      (sifted conditions (scan tx table label)).source.start place e = (opened, e, .ok ())
      ∧ ∀ {β : Type} (e : Engine) (acc : β) (k : Consumer β) (pass : Pass ScanPlace β),
        ScanPlace.run tx table {} e acc (k.passing (Condition.allHold conditions)) = pass →
        ∃ place', (sifted conditions (scan tx table label)).source.run opened e acc k
          = ⟨place', pass.engine, pass.collected, pass.verdict⟩
  | [], place, e => by
    refine ⟨some {}, rfl, fun {β} e acc k pass h => ⟨some pass.place, ?_⟩⟩
    subst h
    rfl
  | condition :: conditions, ⟨inner, isOpen⟩, e => by
    obtain ⟨opened, hstart, hrun⟩ := sifted_scan tx table label conditions inner e
    refine ⟨⟨opened, true⟩, filter_start isOpen hstart, fun {β} e acc k pass h => ?_⟩
    have hboth : (k.passing condition.holds).passing (Condition.allHold conditions)
        = k.passing (Condition.allHold (condition :: conditions)) :=
      Consumer.passing_passing _ _ k
    obtain ⟨place', hpass⟩ := hrun e acc (k.passing condition.holds) pass (hboth ▸ h)
    exact ⟨⟨place', true⟩, filter_run hpass⟩

end Plan

/-! ## 5. Deleting -/

/-- **What a delete of the selected rows of a table answers and does.**  The pages are those of the
table, each as it is handed to the scan, and their rows are the content of the table. -/
structure Engine.DeletesSelected (e : Engine) (tx : Tx) (table : TableFile) (selects : Row → Bool)
    (pages : List Page) (reply : Option Row) (e' : Engine) : Prop where
  length_eq : pages.length = table.pageCount e.disk
  handed : ∀ i page, pages[i]? = some page →
    e.HandsOver tx (selectedIds selects ((pages.take i).flatMap Page.rows)) (table.pageId i) page
  /-- Nothing was changed on a page before it is handed over. -/
  offers : ∀ i page, pages[i]? = some page → e.Offers (table.pageId i) page
  listing : Listing e table (pages.flatMap Page.rows)
  reply_eq : reply = some (Source.countRow ((pages.flatMap Page.rows).countP selects))
  catalog_eq : e'.catalog = e.catalog
  disk_eq : e'.disk = e.disk
  content_eq : ∀ rid, rid.page.table = table.id → e'.content rid
    = if rid ∈ selectedIds selects (pages.flatMap Page.rows) then none else e.content rid
  others : ∀ {other : TableFile} {rid : RecordId}, e.catalog.table? other.id = some other →
    e.Carries other.id other.schema → other.id ≠ table.id → rid.page.table = other.id →
    e'.content rid = e.content rid

theorem Engine.Swept.deletes {dir : Directory} {e e' : Engine} {tx : Tx} {table : TableFile}
    {selects : Row → Bool} {pages : List Page}
    (h : Swept tx table selects 0 (table.pageCount e.disk) e pages e')
    (hl : Legible dir e) (hs : e.Shows table) : e.DeletesSelected tx table selects pages
      (some (Source.countRow ((pages.flatMap Page.rows).countP selects))) e' := by
  have hzero : ∀ i, 0 + i = i := Nat.zero_add
  have hoffers : ∀ i page, pages[i]? = some page → e.Offers (table.pageId i) page :=
    fun i page hi => hzero i ▸ h.offers i page hi
  have hlt : pages.length < UInt32.size := by
    have hlt := h.index_lt
    rwa [hzero, ← h.length_eq] at hlt
  have hshown : ∀ i page, pages[i]? = some page →
      Shown (e.only table) table (table.pageId i) page :=
    fun i page hi => hs.shown rfl (hoffers i page hi)
  obtain ⟨hsound, hcomplete, hascending⟩ := hs.sound.listing (if_pos rfl) h.length_eq hlt hshown
  have hlisting : Listing e table (pages.flatMap Page.rows) := by
    refine ⟨?sound, ?complete, hascending⟩
    case sound =>
      intro row hm
      obtain ⟨rid, hrid, hown, hc⟩ := hsound row hm
      exact ⟨rid, hrid, hown, (content_only hs.registered hown).symm.trans hc⟩
    case complete =>
      intro rid values hown hc
      exact hcomplete rid values hown ((content_only hs.registered hown).trans hc)
  have hothers : ∀ {other : TableFile} {rid : RecordId}, e.catalog.table? other.id = some other →
      e.Carries other.id other.schema → other.id ≠ table.id → rid.page.table = other.id →
      e'.content rid = e.content rid := by
    intro other rid hother hcarries hne hown
    rw [(h.removes.shows (hl.shows hother hcarries)).2 rid hown]
    refine if_neg fun hm => hne ?_
    -- what is selected is an entry of the table
    obtain ⟨row, hrow, -, hrid⟩ := mem_selectedIds.mp hm
    obtain ⟨rid', hrid', hown', -⟩ := hsound row hrow
    rw [hrid] at hrid'
    cases hrid'
    exact hown.symm.trans hown'
  refine ⟨h.length_eq, fun i page hi => ?_, hoffers, hlisting, rfl, h.removes.catalog_eq,
    h.removes.disk_eq, (h.removes.shows hs).2, hothers⟩
  have hhanded := h.handed i page hi
  rwa [hzero] at hhanded

/-- **A delete removes exactly the rows that its filters let through.**  Take any state that a new
store reaches, over any files and by any calls, while all tables have pages of its size and no two
files have one id, a registered table whose cached pages have its schema, and a delete over a stack
of filters over a scan of the table.  Opening it does nothing.  If it then answers at all, its answer
is the number of rows of the table of which all conditions hold, judged on the pages as they are
handed to the scan; the content of the table is the old one without these rows; no other table
changes whose cached pages have its schema, and no file does; and there is nothing more to be handed
out. -/
theorem Plan.delete_selected {dir : Directory} {config : Config} {disk : Disk} {e : Engine}
    {log : List Event}
    (h : Run (fun e c => c.Filed dir e) { config := config, disk := disk } e log)
    {table : TableFile} (ht : e.catalog.table? table.id = some table)
    (hc : e.Carries table.id table.schema) (tx tx' : Tx) (label : String)
    (conditions : List Condition)
    (place : (delete tx' (sifted conditions (scan tx table label))).Place) : ∃ opened,
      (delete tx' (sifted conditions (scan tx table label))).source.start place e
        = (opened, e, .ok ())
      ∧ ∀ {place₁ e₁ reply},
        (delete tx' (sifted conditions (scan tx table label))).source.next opened e
          = (place₁, e₁, .ok reply) →
        (∃ pages, e.DeletesSelected tx table (Condition.allHold conditions) pages reply e₁)
          ∧ (delete tx' (sifted conditions (scan tx table label))).source.next place₁ e₁
            = (place₁, e₁, .ok none) := by
  have hl := h.legible (legible_new dir config disk)
  have hs := hl.shows ht hc
  obtain ⟨opened, hstart, hrun⟩ := sifted_scan tx table label conditions place.input e
  refine ⟨⟨opened, true, false⟩, ?_, fun {place₁ e₁ reply} hnext => ?_⟩
  · show (Source.delete tx' _).start place e = _
    unfold Source.delete Source.change
    simp only [hstart]
    rfl
  · rcases hpass : ScanPlace.run tx table {} e 0
      ((Consumer.changing (deleteRow tx')).passing (Condition.allHold conditions))
      with ⟨last, e₂, count, verdict⟩
    obtain ⟨inner, hinner⟩ := hrun e 0 (Consumer.changing (deleteRow tx')) _ hpass
    have hchange : (delete tx' (sifted conditions (scan tx table label))).source.run
        ⟨opened, true, false⟩ e none Consumer.one = _ := change_run hinner rfl rfl
    rw [Source.next_eq hchange] at hnext
    rcases ScanPlace.run_deleting hs hpass with ⟨f, hfailed⟩ | ⟨pages, hended, hswept, hcount⟩
    · cases hfailed
      cases hnext
    · cases hended
      cases hnext
      simp only at hcount
      subst hcount
      exact ⟨⟨pages, hswept.deletes hl hs⟩, rfl⟩

namespace Sample

/-- Delete what has more than five in its first column. -/
def purge (tx : Tx) : Plan :=
  .delete tx (.sifted [⟨0, .gt, .int 5⟩] (.scan tx table "t"))

end Sample

/-- Two rows are there, one of them committed, and the other is the one that goes. -/
theorem Plan.delete_selected_second : ∃ log opened place₁ e₁ pages,
    Run (fun e c => c.Filed .paths e) Sample.start Sample.second log
      ∧ (Sample.purge ⟨2⟩).source.start (Sample.purge ⟨2⟩).source.fresh Sample.second
        = (opened, Sample.second, .ok ())
      ∧ (Sample.purge ⟨2⟩).source.next opened Sample.second
        = (place₁, e₁, .ok (some (Source.countRow 1)))
      ∧ Sample.second.DeletesSelected ⟨2⟩ Sample.table (Condition.allHold [⟨0, .gt, .int 5⟩]) pages
        (some (Source.countRow 1)) e₁ := by
  obtain ⟨opened, hstart, hnext⟩ := Plan.delete_selected Sample.run_second
    Sample.registered_second Sample.carries_second ⟨2⟩ ⟨2⟩ "t" [⟨0, .gt, .int 5⟩]
    (Sample.purge ⟨2⟩).source.fresh
  have hreply : ((Sample.purge ⟨2⟩).source.next ((Sample.purge ⟨2⟩).source.start
      (Sample.purge ⟨2⟩).source.fresh Sample.second).1 Sample.second).2.2.toOption
        = some (some (Source.countRow 1)) := by decide +kernel
  rw [show (Sample.purge ⟨2⟩).source.start _ Sample.second = _ from hstart] at hreply
  rcases hn : (Sample.purge ⟨2⟩).source.next opened Sample.second with ⟨place₁, e₁, f | reply⟩
  · rw [hn] at hreply
    cases hreply
  · rw [hn] at hreply
    cases hreply
    obtain ⟨⟨pages, hdeletes⟩, -⟩ := hnext hn
    exact ⟨_, opened, place₁, e₁, pages, Sample.run_second, hstart, hn, hdeletes⟩

namespace Sample

/-- A new store over a file with two pages, with room for one. -/
def lone : Engine :=
  { config := { pageSize := 40, pages := 1 }
    disk := { files := [(table.path, .ofList (Bytes.zeros 80))] } }

/-- The store with the first row, and the file registered as one of texts while the page is
cached. -/
def misread : Engine :=
  let registered := (lone.call (.register table "t")).1
  let inserted := (registered.call (.insert ⟨1⟩ table.id ⟨[.int 5], none⟩)).1
  let committed := (inserted.call (.complete ⟨1⟩ true)).1
  (committed.call (.register textTable "t")).1

theorem run_misread : ∃ log, Run (fun e c => c.Filed .paths e) lone misread log := by
  have hslots : 0 < PageLayout.slotCount schema 40 := by decide
  have htexts : 0 < PageLayout.slotCount texts 40 := by decide
  have hone : Run (fun e c => c.OneSize e) lone misread _ :=
    (((Run.nil.call (.register table "t") ⟨rfl, rfl, rfl, hslots⟩ rfl).call
      (.insert ⟨1⟩ table.id ⟨[.int 5], none⟩) trivial rfl).call (.complete ⟨1⟩ true) trivial
      rfl).call (.register textTable "t") ⟨rfl, rfl, rfl, htexts⟩ rfl
  exact ⟨_, hone.on_paths (orderly_new _ _) rfl⟩

/-- Delete from the table of texts what is `zzz`. -/
def purgeTexts (tx : Tx) : Plan :=
  .delete tx (.sifted [⟨0, .eq, .text "zzz"⟩] (.scan tx textTable "t"))

end Sample

/-- **A delete that selects nothing may change a row.**  The page that the scan goes through still
has the schema of the table that is gone.  It leaves the cache for the second page of the table, and
the row that it has reads as a text from then on. -/
theorem Plan.delete_rereads : ∃ log,
    Run (fun e c => c.Filed .paths e) Sample.lone Sample.misread log
      ∧ Sample.misread.catalog.table? Sample.textTable.id = some Sample.textTable
      ∧ Sample.misread.content Sample.first = some [.int 5]
      ∧ ((Query.ofPlan (Sample.purgeTexts ⟨2⟩)).asks Sample.misread
          [(id, .start), (id, .next)]).1.map Except.toOption
        = [some none, some (some (Source.countRow 0))]
      ∧ ((Query.ofPlan (Sample.purgeTexts ⟨2⟩)).asks Sample.misread
          [(id, .start), (id, .next)]).2.content Sample.first = some [.text ""] := by
  obtain ⟨log, hrun⟩ := Sample.run_misread
  exact ⟨log, hrun, by decide +kernel, by decide +kernel, by decide +kernel, by decide +kernel⟩

end RowStore
