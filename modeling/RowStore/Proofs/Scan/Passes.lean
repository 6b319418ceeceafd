import RowStore.Proofs.PageSchemas

/-!
# A scan among other calls

A scan is asked for one row after the other, and between two rows anything may be called, by the
same transaction or by others (`Passes`).  The scan has taken the number of pages when its first row
was asked for, and takes all rows of a page when it comes to it.

* **What a page shows** when it is requested is what was seen of it when the request for a row
  began, or what stands on disk; and then this is seen from then on (`Fetches.seenPage_cases`).
* **What is handed out** is at every moment, together with what is left of the last page, exactly
  the rows of the pages that were requested so far, one after the other (`ScanPlace.Follows`).
-/

namespace RowStore

/-! ## 1. Passes -/

/-- What can be told of a pass from outside: the states it has come through, the latest first, the
number of pages when its first row was asked for, and the rows that were handed out. -/
structure PassLog where
  moments : List Engine
  count : Option Nat := none
  rows : List Row := []

/-- **A pass of a scan** that has not come to its end: it begins with a new scan or with one that is
started over, and then rows are asked for, with calls between them. -/
inductive Passes (allowed : Engine → Call → Prop) (tx : Tx) (table : TableFile) (start : Engine) :
    ScanPlace → Engine → PassLog → Prop
  | created : Passes allowed tx table start (Source.ofTable tx table).fresh start
      { moments := [start] }
  | rewound (before : ScanPlace) : Passes allowed tx table start
      ((Source.ofTable tx table).rewind before start).1 start { moments := [start] }
  | called {place : ScanPlace} {e e' : Engine} {log : PassLog} {events : List Event} (c : Call) :
      Passes allowed tx table start place e log → allowed e c → e.call c = (e', events) →
      Passes allowed tx table start place e' { log with moments := e' :: log.moments }
  | row {place place' : ScanPlace} {e e' : Engine} {log : PassLog} {row : Row} :
      Passes allowed tx table start place e log →
      (Source.ofTable tx table).next place e = (place', e', .ok (some row)) →
      Passes allowed tx table start place' e'
        { moments := e' :: log.moments
          count := some (log.count.getD (table.pageCount e.disk))
          rows := log.rows ++ [row] }

/-- **A page as it was handed out** when it was requested between two states. -/
def Engine.HandsOut (tx : Tx) (e e' : Engine) (pid : PageId) (page : Page) : Prop :=
  ∃ e₁ e₂ frame, Fetches tx e e₁ ∧ e₁.fetch tx .read pid = (e₂, .ok frame)
    ∧ frame.use = .ok page ∧ Fetches tx e₂ e'

/-- The page was handed out on the way from one state of the pass to another. -/
def PassLog.Requested (log : PassLog) (tx : Tx) (pid : PageId) (page : Page) : Prop :=
  ∃ e ∈ log.moments, ∃ e' ∈ log.moments, Engine.HandsOut tx e e' pid page

/-- **The page as it was at the moment when it was requested**, which is one of the states of the
pass: requests have led there from another one, and the last of them was for this page. -/
def PassLog.Taken (log : PassLog) (tx : Tx) (pid : PageId) (page : Page) : Prop :=
  ∃ e ∈ log.moments, ∃ e' ∈ log.moments, ∃ e₁ frame, Engine.Fetches tx e e₁
    ∧ e₁.fetch tx .read pid = (e', .ok frame) ∧ frame.use = .ok page

namespace Engine

variable {e e' e₁ : Engine} {tx : Tx} {pid : PageId} {page : Page} {rid : RecordId}
  {values : List Value}

theorem HandsOut.before (h : Fetches tx e e₁) (h' : HandsOut tx e₁ e' pid page) :
    HandsOut tx e e' pid page := by
  obtain ⟨a, b, frame, ha, hf, hu, hb⟩ := h'
  exact ⟨a, b, frame, h.trans ha, hf, hu, hb⟩

/-- **What is seen of a page** after some requests is what was seen before, or what stands on disk,
and it is seen from then on in the second case. -/
theorem Fetches.seenPage_cases (h : Fetches tx e e') (hp : e.cache.Proper) (pid : PageId) :
    e'.seenPage pid = e.seenPage pid ∨ e'.seenPage pid = e.storedPage pid := by
  induction h with
  | refl => exact Or.inl rfl
  | @tail a b hr hstep ih =>
    have hre := hstep.recached (Fetches.proper hr hp)
    have hsame := Fetches.same hr
    have hstored : a.storedPage pid = e.storedPage pid :=
      storedPage_congr hsame.1 (fun _ => by rw [hsame.2]) pid
    cases hc : b.cache.find? pid with
    | none =>
      refine Or.inr ?_
      unfold seenPage
      rw [hc, ← hstored]
      exact storedPage_congr hre.catalog_eq (fun _ => by rw [hre.disk_eq]) pid
    | some frame =>
      have hseen : b.seenPage pid = some frame.page := by
        unfold seenPage
        rw [hc]
      rcases hre.find? hc with hold | hread
      · have hbefore : a.seenPage pid = some frame.page := by
          unfold seenPage
          rw [hold]
        rwa [hseen, ← hbefore]
      · refine Or.inr ?_
        obtain ⟨table, ht, hreads⟩ := readPage_eq_ok_iff.mp hread
        rw [hseen, ← hstored, storedPage, ht]
        exact hreads.pageAt.1.symm

theorem content_of_seen (h : e.seenPage rid.page = some page) :
    e.content rid = page.cells rid.slot := by
  unfold content
  rw [h]
  rfl

/-- **A row that is there before and after** a page was handed out is on the page. -/
theorem HandsOut.cells_eq (h : HandsOut tx e e' rid.page page) (hp : e.cache.Proper)
    (hbefore : e.content rid = some values) (hafter : e'.content rid = some values) :
    page.cells rid.slot = some values := by
  obtain ⟨e₁, e₂, frame, h₁, hf, hu, h₂⟩ := h
  obtain rfl := Frame.page_of_use hu
  have hto : Fetches tx e e₂ := h₁.trans (fetch_fetches hf)
  have hseen : e₂.seenPage rid.page = some frame.page := by
    unfold seenPage
    rw [(fetch_ok hf).cached]
  rcases hto.seenPage_cases hp rid.page with hsame | hstored
  · rw [← content_of_seen (hsame.symm.trans hseen), hbefore]
  · -- the page was read from disk, so it is seen like this afterwards as well
    have hstays : e'.seenPage rid.page = some frame.page := by
      rcases h₂.seenPage_cases (Fetches.proper hto hp) rid.page with hsame | hstored'
      · exact hsame.trans hseen
      · have hdisk := Fetches.same hto
        rw [hstored', storedPage_congr hdisk.1 (fun _ => by rw [hdisk.2]), ← hstored, hseen]
    rw [← content_of_seen hstays, hafter]

end Engine

/-! ## 2. One request for a row -/

namespace ScanPlace

open Engine

variable {tx : Tx} {table : TableFile} {place place' : ScanPlace} {e e' : Engine}

/-- **The pages that a request for a row goes through**: they are handed out one after the other,
the first one at the place's next page. -/
def Reaches (tx : Tx) (table : TableFile) (e e' : Engine) (first : Nat) (pages : List Page) : Prop :=
  ∀ j page, pages[j]? = some page → HandsOut tx e e' (table.pageId (first + j)) page

theorem Reaches.nil {first : Nat} : Reaches tx table e e' first [] := by
  intro j page hj
  simp at hj

theorem Reaches.cons {e₁ : Engine} {first : Nat} {frame : Frame} {page : Page} {pages : List Page}
    (hf : e.fetch tx .read (table.pageId first) = (e₁, .ok frame)) (hu : frame.use = .ok page)
    (hrest : Fetches tx e₁ e') (h : Reaches tx table e₁ e' (first + 1) pages) :
    Reaches tx table e e' first (page :: pages) := by
  intro j found hj
  cases j with
  | zero =>
    cases hj
    exact ⟨e, e₁, frame, .refl, hf, hu, hrest⟩
  | succ j =>
    have hnext := h j found (by simpa using hj)
    rw [Nat.add_assoc, Nat.add_comm 1 j] at hnext
    exact hnext.before (fetch_fetches hf)

/-- A page with rows on it ends the request. -/
def Lands (tx : Tx) (table : TableFile) (e e' : Engine) (first : Nat) (pages : List Page) : Prop :=
  ∀ j page, pages[j]? = some page → page.rows ≠ [] → ∃ e₁ frame, Fetches tx e e₁
    ∧ e₁.fetch tx .read (table.pageId (first + j)) = (e', .ok frame) ∧ frame.use = .ok page

theorem Lands.cons_empty {e₁ : Engine} {first : Nat} {page : Page} {pages : List Page}
    (hf : Fetches tx e e₁) (hempty : page.rows = []) (h : Lands tx table e₁ e' (first + 1) pages) :
    Lands tx table e e' first (page :: pages) := by
  intro j found hj hne
  cases j with
  | zero =>
    cases hj
    exact absurd hempty hne
  | succ j =>
    obtain ⟨e₂, frame, hf', hfetch, hu⟩ := h j found (by simpa using hj) hne
    rw [Nat.add_assoc, Nat.add_comm 1 j] at hfetch
    exact ⟨e₂, frame, hf.trans hf', hfetch, hu⟩

/-- **Looking for one row on the next pages**: the pages are empty up to the one with the row, whose
other rows are left, or all of them are. -/
theorem runPages_one (tx : Tx) (table : TableFile) (n : Nat) (place : ScanPlace) (e : Engine)
    (pass : Pass ScanPlace (Option Row)) (h : runPages tx table Consumer.one n place e none = pass) :
    Fetches tx e pass.engine ∧ ((∃ f, pass.verdict = .failed f)
      ∨ ∃ pages, pages.length ≤ n ∧ Reaches tx table e pass.engine place.nextPage pages
        ∧ Lands tx table e pass.engine place.nextPage pages
        ∧ ((∃ row, pass.verdict = .stopped ∧ pass.collected = some row
            ∧ pages.flatMap Page.rows = row :: pass.place.pending
            ∧ pass.place = { place with
                nextPage := place.nextPage + pages.length, pending := pass.place.pending })
          ∨ pass.verdict = .ended ∧ pass.collected = none ∧ pages.length = n
            ∧ pages.flatMap Page.rows = [])) := by
  induction n generalizing place e with
  | zero =>
    subst h
    exact ⟨.refl, Or.inr ⟨[], Nat.le_refl _, .nil, fun j page hj => by simp at hj,
      Or.inr ⟨rfl, rfl, rfl, rfl⟩⟩⟩
  | succ n ih =>
    unfold runPages at h
    split at h
    · rename_i e₁ f hf
      subst h
      exact ⟨fetch_fetches hf, Or.inl ⟨f, rfl⟩⟩
    · rename_i e₁ frame hf
      have hfe := fetch_fetches hf
      split at h
      · rename_i f hu
        subst h
        exact ⟨hfe, Or.inl ⟨f, rfl⟩⟩
      · rename_i page hu
        cases hrows : page.rows with
        | nil =>
          rw [hrows] at h
          simp only [Consumer.feed] at h
          obtain ⟨hr, hend⟩ := ih _ e₁ h
          refine ⟨hfe.trans hr, hend.imp_right ?_⟩
          rintro ⟨pages, hle, hreach, hland, hlast⟩
          refine ⟨page :: pages, Nat.succ_le_succ hle, .cons hf hu hr hreach,
            .cons_empty hfe hrows hland, ?_⟩
          rw [List.flatMap_cons, hrows, List.nil_append, List.length_cons]
          refine hlast.imp ?_ ?_
          · rintro ⟨row, hv, hc, hrow, hplace⟩
            refine ⟨row, hv, hc, hrow, hplace.trans ?_⟩
            simp only [Nat.add_assoc, Nat.add_comm 1]
          · rintro ⟨hv, hc, hl, hempty⟩
            exact ⟨hv, hc, by rw [hl], hempty⟩
        | cons row rest =>
          rw [hrows] at h
          simp only [Consumer.feed, Consumer.one] at h
          subst h
          refine ⟨hfe, Or.inr ⟨[page], Nat.succ_le_succ (Nat.zero_le n),
            .cons hf hu .refl .nil, fun j found hj _ => ?_, Or.inl ⟨row, rfl, rfl, ?_, rfl⟩⟩⟩
          · obtain ⟨rfl, rfl⟩ : j = 0 ∧ page = found := by
              cases j with
              | zero => exact ⟨rfl, Option.some.inj hj⟩
              | succ j => simp at hj
            exact ⟨e, frame, .refl, hf, hu⟩
          · simp [hrows]

/-- The number of pages of a pass, taken before or now. -/
def total (place : ScanPlace) (table : TableFile) (e : Engine) : Nat :=
  place.pageCount.getD (table.pageCount e.disk)

/-- **How a scan is asked for a row**: it has one left of the last page, or it looks at the next
pages. -/
theorem next_cases {r : Except Failure (Option Row)} (hd : place.done = false)
    (h : (Source.ofTable tx table).next place e = (place', e', r)) :
    Fetches tx e e' ∧ ((∃ f, r = .error f)
      ∨ (∃ row rest, place.pending = row :: rest ∧ r = .ok (some row) ∧ e' = e
        ∧ place' = { place with pending := rest })
      ∨ place.pending = [] ∧ ∃ pages, pages.length ≤ place.total table e - place.nextPage
        ∧ Reaches tx table e e' place.nextPage pages ∧ Lands tx table e e' place.nextPage pages
        ∧ ((∃ row, r = .ok (some row) ∧ pages.flatMap Page.rows = row :: place'.pending
            ∧ place' = { place with
                pageCount := some (place.total table e)
                nextPage := place.nextPage + pages.length
                pending := place'.pending })
          ∨ r = .ok none ∧ pages.length = place.total table e - place.nextPage
            ∧ pages.flatMap Page.rows = [])) := by
  rcases hpass : (Source.ofTable tx table).run place e none Consumer.one with
    ⟨last, e₁, found, verdict⟩
  rw [Source.next_eq hpass] at h
  have hrun : ScanPlace.run tx table place e none Consumer.one = ⟨last, e₁, found, verdict⟩ := hpass
  unfold ScanPlace.run at hrun
  rw [if_neg (by simp [hd])] at hrun
  cases hpending : place.pending with
  | cons row rest =>
    rw [hpending] at hrun
    simp only [Consumer.feed, Consumer.one] at hrun
    cases hrun
    cases h
    exact ⟨.refl, Or.inr (Or.inl ⟨row, rest, rfl, rfl, rfl, rfl⟩)⟩
  | nil =>
    rw [hpending] at hrun
    simp only [Consumer.feed] at hrun
    split at hrun
    · rename_i f hcount
      cases hrun
      cases h
      exact ⟨.refl, Or.inl ⟨f, rfl⟩⟩
    · rename_i count hcount
      have htotal : count = place.total table e := by
        unfold countPages at hcount
        unfold total
        split at hcount
        · rename_i known hknown
          rw [hknown]
          exact (Except.ok.inj hcount).symm
        · rename_i hnone
          rw [hnone]
          exact TableFile.eq_of_countPages hcount
      subst htotal
      obtain ⟨hf, hend⟩ := runPages_one tx table _ _ e _ hrun
      rcases hend with ⟨f, hv⟩ | ⟨pages, hle, hreach, hland, hlast⟩
      · cases hv
        cases h
        exact ⟨hf, Or.inl ⟨f, rfl⟩⟩
      · rcases hlast with ⟨row, hv, hc, hrow, hplace⟩ | ⟨hv, hc, hl, hempty⟩
        · cases hv
          cases hc
          cases h
          exact ⟨hf, Or.inr (Or.inr ⟨rfl, pages, hle, hreach, hland,
            Or.inl ⟨row, rfl, hrow, hplace⟩⟩)⟩
        · cases hv
          cases hc
          cases h
          exact ⟨hf, Or.inr (Or.inr ⟨rfl, pages, hle, hreach, hland,
            Or.inr ⟨rfl, hl, hempty⟩⟩)⟩

end ScanPlace

/-! ## 3. What a pass has handed out -/

open Engine

variable {allowed : Engine → Call → Prop} {tx : Tx} {table : TableFile} {start e e' : Engine}
  {place place' : ScanPlace} {log : PassLog}

/-- **What a scan has handed out**, together with what is left of the last page, are the rows of the
pages that were requested so far. -/
structure ScanPlace.Follows (tx : Tx) (table : TableFile) (place : ScanPlace) (log : PassLog)
    (pages : List Page) : Prop where
  rows_eq : log.rows ++ place.pending = pages.flatMap Page.rows
  nextPage_eq : place.nextPage = pages.length
  length_le : pages.length ≤ log.count.getD 0
  pageCount_eq : place.pageCount = log.count
  requested : ∀ j page, pages[j]? = some page → log.Requested tx (table.pageId j) page
  taken : ∀ j page, pages[j]? = some page → page.rows ≠ [] → log.Taken tx (table.pageId j) page
  counted : ∀ n, log.count = some n → ∃ m ∈ log.moments, n = table.pageCount m.disk
  going : place.done = false

/-- A page that was requested stays one when the pass goes on. -/
theorem PassLog.Requested.mono {more : PassLog} {pid : PageId} {page : Page}
    (h : log.Requested tx pid page) (hle : ∀ m ∈ log.moments, m ∈ more.moments) :
    more.Requested tx pid page := by
  obtain ⟨m, hm, m', hm', ho⟩ := h
  exact ⟨m, hle m hm, m', hle m' hm', ho⟩

theorem PassLog.Taken.mono {more : PassLog} {pid : PageId} {page : Page}
    (h : log.Taken tx pid page) (hle : ∀ m ∈ log.moments, m ∈ more.moments) :
    more.Taken tx pid page := by
  obtain ⟨m, hm, m', hm', e₁, frame, ht⟩ := h
  exact ⟨m, hle m hm, m', hle m' hm', e₁, frame, ht⟩

/-- The state that a pass has come to is one of those it has come through. -/
theorem Passes.here (h : Passes allowed tx table start place e log) : e ∈ log.moments := by
  cases h with
  | created | rewound => exact List.mem_singleton_self _
  | called | row => exact List.mem_cons_self

/-- The pages that are requested for one row come behind those before. -/
theorem ScanPlace.Follows.reaches {pages more : List Page} {log' : PassLog}
    (h : place.Follows tx table log pages) (hle : ∀ m ∈ log.moments, m ∈ log'.moments)
    (hm : e ∈ log'.moments) (hm' : e' ∈ log'.moments)
    (hreach : Reaches tx table e e' place.nextPage more) :
    ∀ j page, (pages ++ more)[j]? = some page → log'.Requested tx (table.pageId j) page := by
  intro j page hj
  rcases Nat.lt_or_ge j pages.length with hlt | hge
  · rw [List.getElem?_append_left hlt] at hj
    exact (h.requested j page hj).mono hle
  · rw [List.getElem?_append_right hge] at hj
    have ho := hreach _ page hj
    rw [h.nextPage_eq, Nat.add_sub_cancel' hge] at ho
    exact ⟨e, hm, e', hm', ho⟩

theorem ScanPlace.Follows.lands {pages more : List Page} {log' : PassLog}
    (h : place.Follows tx table log pages) (hle : ∀ m ∈ log.moments, m ∈ log'.moments)
    (hm : e ∈ log'.moments) (hm' : e' ∈ log'.moments)
    (hland : Lands tx table e e' place.nextPage more) :
    ∀ j page, (pages ++ more)[j]? = some page → page.rows ≠ [] →
      log'.Taken tx (table.pageId j) page := by
  intro j page hj hne
  rcases Nat.lt_or_ge j pages.length with hlt | hge
  · rw [List.getElem?_append_left hlt] at hj
    exact (h.taken j page hj hne).mono hle
  · rw [List.getElem?_append_right hge] at hj
    obtain ⟨e₁, frame, hf, hfetch, hu⟩ := hland _ page hj hne
    rw [h.nextPage_eq, Nat.add_sub_cancel' hge] at hfetch
    exact ⟨e, hm, e', hm', e₁, frame, hf, hfetch, hu⟩

/-- **Along a pass the rows are accounted for.** -/
theorem Passes.follows (h : Passes allowed tx table start place e log) :
    ∃ pages, place.Follows tx table log pages := by
  induction h with
  | created | rewound =>
    refine ⟨[], rfl, rfl, Nat.le_refl _, rfl, fun j page hj => ?_, fun j page hj => ?_,
      fun n hn => ?_, rfl⟩
    · simp at hj
    · simp at hj
    · cases hn
  | called c h _ _ ih =>
    obtain ⟨pages, hf⟩ := ih
    refine ⟨pages, hf.rows_eq, hf.nextPage_eq, hf.length_le, hf.pageCount_eq, fun j page hj =>
      (hf.requested j page hj).mono fun m hm => List.mem_cons_of_mem _ hm, fun j page hj hne =>
      (hf.taken j page hj hne).mono fun m hm => List.mem_cons_of_mem _ hm, fun n hn => ?_, hf.going⟩
    obtain ⟨m, hm, he⟩ := hf.counted n hn
    exact ⟨m, List.mem_cons_of_mem _ hm, he⟩
  | @row place place' e e' log row h hnext ih =>
    obtain ⟨pages, hf⟩ := ih
    have hstay : ∀ m ∈ log.moments, m ∈ e' :: log.moments := fun m hm => List.mem_cons_of_mem _ hm
    have hcounted : ∀ n, some (log.count.getD (table.pageCount e.disk)) = some n →
        ∃ m ∈ e' :: log.moments, n = table.pageCount m.disk := by
      rintro n ⟨⟩
      cases hc : log.count with
      | none => exact ⟨e, hstay e h.here, rfl⟩
      | some n =>
        obtain ⟨m, hm, he⟩ := hf.counted n hc
        exact ⟨m, hstay m hm, he⟩
    obtain ⟨-, ⟨f, hr⟩ | ⟨found, rest, hpending, hr, -, hplace⟩
        | ⟨hpending, more, hle, hreach, hland, hend⟩⟩ := ScanPlace.next_cases hf.going hnext
    · cases hr
    · -- the row was left of the last page
      cases hr
      subst hplace
      have hknown : ∃ n, log.count = some n := by
        cases hc : log.count with
        | some n => exact ⟨n, rfl⟩
        | none =>
          have hnil : pages = [] := by
            have hle := hf.length_le
            rw [hc] at hle
            exact List.eq_nil_of_length_eq_zero (Nat.le_zero.mp hle)
          have hrows := hf.rows_eq
          rw [hnil, hpending] at hrows
          simp at hrows
      obtain ⟨n, hn⟩ := hknown
      have hcount : some (log.count.getD (table.pageCount e.disk)) = log.count := by rw [hn]; rfl
      refine ⟨pages, ?_, hf.nextPage_eq, ?_, ?_, fun j page hj =>
        (hf.requested j page hj).mono hstay, fun j page hj hne =>
        (hf.taken j page hj hne).mono hstay, hcounted, hf.going⟩
      · rw [← hf.rows_eq, hpending, List.append_assoc]
        rfl
      · rw [hcount]
        exact hf.length_le
      · rw [hcount]
        exact hf.pageCount_eq
    · -- the row is the first one of the next page that is not empty
      rcases hend with ⟨found, hr, hrows, hplace⟩ | ⟨hr, -⟩
      · cases hr
        have htotal : place.total table e = log.count.getD (table.pageCount e.disk) := by
          rw [ScanPlace.total, hf.pageCount_eq]
        rw [htotal] at hle hplace
        refine ⟨pages ++ more, ?_, ?_, ?_, ?_,
          hf.reaches hstay (hstay e h.here) List.mem_cons_self hreach,
          hf.lands hstay (hstay e h.here) List.mem_cons_self hland, hcounted, ?_⟩
        · rw [List.flatMap_append, ← hf.rows_eq, hpending, hrows, List.append_nil,
            List.append_assoc]
          rfl
        · rw [hplace, List.length_append, hf.nextPage_eq]
        · have hbefore := hf.length_le
          rw [hf.nextPage_eq] at hle
          rw [List.length_append, Option.getD_some]
          cases hc : log.count with
          | none =>
            rw [hc] at hbefore hle
            simp only [Option.getD_none] at hbefore hle ⊢
            omega
          | some n =>
            rw [hc] at hbefore hle
            simp only [Option.getD_some] at hbefore hle ⊢
            omega
        · rw [hplace]
        · rw [hplace]
          exact hf.going
      · cases hr

end RowStore
