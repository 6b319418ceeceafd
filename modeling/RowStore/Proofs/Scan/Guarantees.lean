import RowStore.Proofs.Growing
import RowStore.Proofs.Scan.Passes

/-!
# What a scan guarantees

A pass hands out rows in the order of their record ids, each as it was on its page when this page was
requested, from the pages that were counted when the first row was asked for.  So there are no more
rows than these pages have slots, whatever is put behind them meanwhile, and an insert or a delete
that is fed by a scan of its own table ends.  What stands at one place all the time is handed out
once by a pass that comes to its end.

Main statement: `pass_sound`.
-/

namespace RowStore

open Engine

variable {allowed : Engine → Call → Prop} {tx : Tx} {table : TableFile} {start e e' : Engine}
  {place place' : ScanPlace} {log : PassLog}

/-! ## 1. Pages that were requested -/

namespace Engine

/-- **Every call leaves cached pages well formed.** -/
theorem Formed.call {c : Call} {events : List Event} (hf : Formed e) (ho : Orderly e)
    (h : e.call c = (e', events)) : Formed e' := by
  cases rearranges_of_call ho h with
  | same hi => exact hi.formed hf
  | fewer hcache _ => exact hf.congr hcache
  | more hcache _ _ => exact hf.congr hcache

theorem formed_of_run {history : List Event} (h : Run allowed start e history)
    (ho : Orderly start) (hf : Formed start) : Orderly e ∧ Formed e := by
  induction h with
  | nil => exact ⟨ho, hf⟩
  | call c _ _ he ih => exact ⟨ih.1.call c he, ih.2.call ih.1 he⟩

theorem Formed.fetches (hf : Formed e) (ho : Orderly e) (h : Fetches tx e e') : Formed e' :=
  (h.moves.inherits ho).formed hf

/-- A page that was handed out is well formed and not the last that 32 bits can name. -/
theorem HandsOut.formed {pid : PageId} {page : Page} (h : HandsOut tx e e' pid page)
    (ho : Orderly e) (hf : Formed e) :
    page.WellFormed ∧ page.pid = pid ∧ pid.index.toNat + 1 < UInt32.size := by
  obtain ⟨e₁, e₂, frame, h₁, hfetch, hu, -⟩ := h
  obtain rfl := Frame.page_of_use hu
  have hto : Fetches tx e e₂ := h₁.trans (fetch_fetches hfetch)
  have ho₂ := hto.orderly ho
  have hcached := (fetch_ok hfetch).cached
  exact ⟨hf.fetches ho hto hcached, ho₂.proper.keyed hcached, ho₂.index_lt hcached⟩

end Engine

/-- **What calls and requests keep** holds at every moment of a pass. -/
theorem Passes.all {S : Engine → Prop} (h : Passes allowed tx table start place e log)
    (hs : S start)
    (hcall : ∀ {e e' : Engine} {c : Call} {events : List Event}, allowed e c → S e →
      e.call c = (e', events) → S e')
    (hfetch : ∀ {e e' : Engine}, Fetches tx e e' → S e → S e') : ∀ m ∈ log.moments, S m := by
  induction h with
  | created | rewound =>
    intro m hm
    exact List.mem_singleton.mp hm ▸ hs
  | called c h hc he ih =>
    exact List.forall_mem_cons.mpr ⟨hcall hc (ih _ h.here) he, ih⟩
  | row h hnext ih =>
    obtain ⟨pages, hf⟩ := h.follows
    exact List.forall_mem_cons.mpr
      ⟨hfetch (ScanPlace.next_cases hf.going hnext).1 (ih _ h.here), ih⟩

/-- A page has at most as many rows as slots. -/
theorem Page.WellFormed.length_rows_le {p : Page} (h : p.WellFormed) :
    p.rows.length ≤ p.slotCount := by
  rw [← h.length_slots]
  exact List.length_filterMap_le _ _

/-- Pages that were requested one after the other are as many as 32 bits can name. -/
theorem laid_of_requested {pages : List Page}
    (hall : ∀ m ∈ log.moments, Orderly m ∧ Formed m)
    (h : ∀ j page, pages[j]? = some page → log.Requested tx (table.pageId j) page) :
    Laid table pages := by
  have hpage : ∀ j page, pages[j]? = some page → page.WellFormed ∧ page.pid = table.pageId j
      ∧ (table.pageId j).index.toNat + 1 < UInt32.size := by
    intro j page hj
    obtain ⟨m, hm, m', -, ho⟩ := h j page hj
    exact ho.formed (hall m hm).1 (hall m hm).2
  refine ⟨Nat.lt_of_not_le fun hle => ?_,
    fun j page hj => ⟨(hpage j page hj).1, (hpage j page hj).2.1⟩⟩
  have hlast : UInt32.size - 1 < pages.length := Nat.lt_of_lt_of_le (by decide) hle
  obtain ⟨-, -, hlt⟩ := hpage _ _ (List.getElem?_eq_getElem hlast)
  rw [table.index_pageId (by decide)] at hlt
  exact absurd hlt (by decide)

namespace Laid

variable {pages : List Page}

/-- The pages have at most so many rows as they have slots. -/
theorem length_rows_le (h : Laid table pages) {slots : Nat}
    (hslots : ∀ page ∈ pages, page.rows ≠ [] → page.slotCount ≤ slots) :
    (pages.flatMap Page.rows).length ≤ pages.length * slots := by
  have hrows : ∀ page ∈ pages, page.rows.length ≤ slots := by
    intro page hp
    obtain ⟨j, hj⟩ := List.mem_iff_getElem?.mp hp
    by_cases hempty : page.rows = []
    · exact hempty ▸ Nat.zero_le _
    · exact Nat.le_trans ((h.page j page hj).1.length_rows_le) (hslots page hp hempty)
  clear h hslots
  induction pages with
  | nil => exact Nat.zero_le _
  | cons page pages ih =>
    obtain ⟨hfirst, hrest⟩ := List.forall_mem_cons.mp hrows
    rw [List.flatMap_cons, List.length_append, List.length_cons, Nat.succ_mul, Nat.add_comm]
    exact Nat.add_le_add (ih hrest) hfirst

end Laid

/-- Where record ids ascend, each comes once. -/
theorem filter_rid_of_ascending {rows : List Row} {row : Row} {rid : RecordId}
    (h : rows.Pairwise fun a b => ∃ r s, a.rid = some r ∧ b.rid = some s ∧ r.Before s)
    (hm : row ∈ rows) (hrid : row.rid = some rid) :
    (rows.filter fun row => row.rid = some rid) = [row] := by
  have hmem : row ∈ rows.filter fun row => row.rid = some rid :=
    List.mem_filter.mpr ⟨hm, decide_eq_true hrid⟩
  have hpair := h.filter fun row => decide (row.rid = some rid)
  have hall : ∀ other ∈ rows.filter fun row => row.rid = some rid, other.rid = some rid :=
    fun other ho => of_decide_eq_true (List.mem_filter.mp ho).2
  generalize (rows.filter fun row => decide (row.rid = some rid)) = found at hmem hpair hall
  match found with
  | [] => cases hmem
  | [other] => rw [List.mem_singleton.mp hmem]
  | first :: second :: rest =>
    obtain ⟨r, s, hr, hs, hbefore⟩ := (List.pairwise_cons.mp hpair).1 second List.mem_cons_self
    rw [hall first List.mem_cons_self] at hr
    rw [hall second (List.mem_cons_of_mem _ List.mem_cons_self)] at hs
    cases hr
    cases hs
    rcases hbefore with hlt | ⟨-, hlt⟩
    · exact absurd hlt (UInt32.lt_irrefl _)
    · exact absurd hlt (Nat.lt_irrefl _)

/-! ## 2. What a pass guarantees -/

/-- **What a pass has handed out so far**: rows in the order of their record ids, on pages that were
counted, each on its page when this was requested, and no more than the pages have slots. -/
structure PassLog.Ordered (log : PassLog) (tx : Tx) (table : TableFile) : Prop where
  ascending : log.rows.Pairwise fun a b => ∃ r s, a.rid = some r ∧ b.rid = some s ∧ r.Before s
  placed : ∀ row ∈ log.rows, ∃ rid page, row.rid = some rid ∧ rid.page.table = table.id
    ∧ rid.page.index.toNat < log.count.getD 0 ∧ log.Taken tx rid.page page
    ∧ page.row? rid.slot = some row
  bounded : ∀ slots, (∀ pid page, pid.table = table.id → log.Taken tx pid page →
    page.slotCount ≤ slots) → log.rows.length ≤ log.count.getD 0 * slots

/-- **What a pass that has come to its end has handed out**: whatever stood at one place all the
time, once. -/
def PassLog.Complete (log : PassLog) (tx : Tx) (table : TableFile) (count : Nat) : Prop :=
  ∀ rid values, rid.page.table = table.id → rid.page.index.toNat < count →
    (∀ m ∈ log.moments, m.content rid = some values) →
    ∃ row page, (log.rows.filter fun row => row.rid = some rid) = [row]
      ∧ log.Taken tx rid.page page ∧ page.row? rid.slot = some row
      ∧ Row.cutValues row.values page.schema.columns = values

theorem ScanPlace.Follows.ordered {pages : List Page} (h : place.Follows tx table log pages)
    (hall : ∀ m ∈ log.moments, Orderly m ∧ Formed m) : log.Ordered tx table := by
  have hlaid := laid_of_requested hall h.requested
  have hsub : ∀ row ∈ log.rows, row ∈ pages.flatMap Page.rows := fun row hm =>
    h.rows_eq ▸ List.mem_append_left _ hm
  refine ⟨?_, fun row hm => ?_, fun slots hslots => ?_⟩
  · have hascending := hlaid.ascending
    rw [← h.rows_eq, List.pairwise_append] at hascending
    exact hascending.1
  · obtain ⟨j, page, slot, hj, hslot, hrid⟩ := hlaid.mem (hsub row hm)
    obtain ⟨hlt, -⟩ := List.getElem?_eq_some_iff.mp hj
    refine ⟨_, page, hrid, rfl, ?_, h.taken j page hj ?_, hslot⟩
    · rw [table.index_pageId (Nat.lt_trans hlt hlaid.length_lt)]
      exact Nat.lt_of_lt_of_le hlt h.length_le
    · exact List.ne_nil_of_mem ((Page.mem_rows_iff row).mpr ⟨slot, hslot⟩)
  · have hle := hlaid.length_rows_le fun page hp hne => by
      obtain ⟨j, hj⟩ := List.mem_iff_getElem?.mp hp
      exact hslots _ page rfl (h.taken j page hj hne)
    rw [← h.rows_eq, List.length_append] at hle
    exact Nat.le_trans (Nat.le_of_add_right_le hle)
      (Nat.mul_le_mul_right slots h.length_le)

/-- **A pass that comes to its end has handed out whatever was there all the time.** -/
theorem ScanPlace.Follows.complete {pages : List Page} (h : place.Follows tx table log pages)
    (he : e ∈ log.moments) (hall : ∀ m ∈ e' :: log.moments, Orderly m ∧ Formed m)
    (hnext : (Source.ofTable tx table).next place e = (place', e', .ok none)) :
    PassLog.Complete { log with moments := e' :: log.moments } tx table
      (log.count.getD (table.pageCount e.disk)) := by
  obtain ⟨-, ⟨f, hr⟩ | ⟨found, rest, -, hr, -⟩ | ⟨hpending, more, -, hreach, hland, hend⟩⟩ :=
    ScanPlace.next_cases h.going hnext
  · cases hr
  · cases hr
  rcases hend with ⟨found, hr, -⟩ | ⟨-, hlength, hempty⟩
  · cases hr
  have hrequested : ∀ j page, (pages ++ more)[j]? = some page →
      PassLog.Requested { log with moments := e' :: log.moments } tx (table.pageId j) page :=
    h.reaches (fun m hm => List.mem_cons_of_mem _ hm) (List.mem_cons_of_mem _ he)
      List.mem_cons_self hreach
  have htaken : ∀ j page, (pages ++ more)[j]? = some page → page.rows ≠ [] →
      PassLog.Taken { log with moments := e' :: log.moments } tx (table.pageId j) page :=
    h.lands (fun m hm => List.mem_cons_of_mem _ hm) (List.mem_cons_of_mem _ he)
      List.mem_cons_self hland
  have hlaid := laid_of_requested hall hrequested
  have hrows : log.rows = (pages ++ more).flatMap Page.rows := by
    rw [List.flatMap_append, hempty, List.append_nil, ← h.rows_eq, hpending, List.append_nil]
  have hcount : log.count.getD (table.pageCount e.disk) ≤ (pages ++ more).length := by
    rw [List.length_append, hlength, h.nextPage_eq, ScanPlace.total, h.pageCount_eq]
    omega
  intro rid values hown hlt hthere
  obtain ⟨page, hj⟩ : ∃ page, (pages ++ more)[rid.page.index.toNat]? = some page :=
    ⟨_, List.getElem?_eq_getElem (Nat.lt_of_lt_of_le hlt hcount)⟩
  have hpid : table.pageId rid.page.index.toNat = rid.page := by
    rw [TableFile.pageId, ← hown, UInt32.ofNat_toNat]
  have hreq := hrequested _ page hj
  rw [hpid] at hreq
  obtain ⟨m, hm, m', hm', ho⟩ := hreq
  have hcells := ho.cells_eq (hall m hm).1.proper (hthere m hm) (hthere m' hm')
  obtain ⟨row, hslot, hvalues⟩ := Option.map_eq_some_iff.mp hcells
  obtain ⟨hw, hpage⟩ := hlaid.page _ page hj
  have hrid : row.rid = some rid := by
    rw [(hw.row_of_row? hslot).2, hpage, hpid]
  have honPage : row ∈ page.rows := (Page.mem_rows_iff row).mpr ⟨_, hslot⟩
  have hmem : row ∈ log.rows := by
    rw [hrows]
    exact List.mem_flatMap.mpr ⟨page, List.mem_of_getElem? hj, honPage⟩
  exact ⟨row, page, filter_rid_of_ascending (hrows ▸ hlaid.ascending) hmem hrid,
    hpid ▸ htaken _ page hj (List.ne_nil_of_mem honPage), hslot, hvalues⟩

/-! ## 3. Registered tables -/

namespace Engine

/-- The pages that a registered table hands out are of its shape. -/
theorem Serving.shapes {pid : PageId} {page : Page} (hs : Serving e table)
    (hown : pid.table = table.id) (h : HandsOut tx e e' pid page) : table.Shapes page := by
  obtain ⟨e₁, e₂, frame, h₁, hf, hu, -⟩ := h
  obtain rfl := Frame.page_of_use hu
  have hs₂ := hs.fetches (h₁.trans (fetch_fetches hf))
  obtain ⟨other, ho, hshape, -⟩ := hs₂.sound.lodged (fetch_ok hf).cached
  rw [hown, hs₂.registered] at ho
  cases ho
  exact hshape

end Engine

/-- **The rows that a change is applied to** are no more than the pages have slots. -/
theorem feed_changing_le {apply : Row → Engine → Engine × Except Failure Unit} {S : Engine → Prop}
    (happly : ∀ {row : Row} {e e' : Engine} {r : Except Failure Unit}, S e →
      apply row e = (e', r) → S e') : ∀ {rows left : List Row} {n n' : Nat} {e e' : Engine}
      {signal : Signal}, S e → (Consumer.changing apply).feed rows n e = (left, e', n', signal) →
      S e' ∧ n' ≤ n + rows.length
  | [], left, n, n', e, e', signal, hs, h => by
    cases h
    exact ⟨hs, Nat.le_refl _⟩
  | row :: rows, left, n, n', e, e', signal, hs, h => by
    rcases ha : apply row e with ⟨e₁, r⟩
    have hs₁ := happly hs ha
    rw [Consumer.feed, Consumer.changing, ha] at h
    cases r with
    | ok u =>
      obtain ⟨hs', hle⟩ := feed_changing_le happly hs₁ h
      rw [List.length_cons]
      exact ⟨hs', by omega⟩
    | error f =>
      cases h
      exact ⟨hs₁, Nat.le_add_right _ _⟩

/-- The number of rows on a page of a table, at most. -/
abbrev TableFile.slots (table : TableFile) : Nat :=
  PageLayout.slotCount table.schema table.pageSize

theorem TableFile.Shapes.length_rows_le {page : Page} (h : table.Shapes page) :
    page.rows.length ≤ table.slots := by
  have hle := h.wellFormed.length_rows_le
  rwa [Page.slotCount, h.schema_eq, h.size_eq] at hle

section Changes

variable {apply : Row → Engine → Engine × Except Failure Unit}

/-- **A change of the rows of some pages** is applied to no more rows than they have slots, though
it may put rows on pages that the scan comes to later. -/
theorem runPages_changing_le
    (happly : ∀ {row : Row} {e e' : Engine} {r : Except Failure Unit}, e.Serving table →
      apply row e = (e', r) → e'.Serving table) :
    ∀ (n : Nat) (place : ScanPlace) (e : Engine) (acc : Nat), e.Serving table →
      (ScanPlace.runPages tx table (Consumer.changing apply) n place e acc).collected
        ≤ acc + n * table.slots
  | 0, place, e, acc, _ => Nat.le_add_right _ _
  | n + 1, place, e, acc, hs => by
    rcases hf : e.fetch tx .read (table.pageId place.nextPage) with ⟨e₁, result⟩
    have hs₁ := hs.fetches (fetch_fetches hf)
    simp only [ScanPlace.runPages, hf]
    cases result with
    | error f => exact Nat.le_add_right _ _
    | ok frame =>
      cases hu : frame.use with
      | error f =>
        simp only [hu]
        exact Nat.le_add_right _ _
      | ok page =>
        simp only [hu]
        have hrows : page.rows.length ≤ table.slots :=
          (hs.shapes rfl ⟨e, e₁, frame, .refl, hf, hu, .refl⟩).length_rows_le
        rcases hfeed : (Consumer.changing apply).feed page.rows acc e₁ with ⟨left, e', acc', signal⟩
        obtain ⟨hs', hle⟩ := feed_changing_le happly hs₁ hfeed
        rw [Nat.succ_mul]
        cases signal with
        | more =>
          have ih := runPages_changing_le happly n
            { place with nextPage := place.nextPage + 1, pending := left } e' acc' hs'
          simp only
          omega
        | stop | fail f =>
          simp only
          omega

/-- **A change that is fed by a scan of a registered table** ends: it counts no more rows than the
table had slots when the change was asked for its row. -/
theorem next_change_le {kind : OperatorKind} {place' : ChangePlace (Option ScanPlace)}
    {r : Except Failure (Option Row)} (hs : e.Serving table)
    (happly : ∀ {row : Row} {e e' : Engine} {r : Except Failure Unit}, e.Serving table →
      apply row e = (e', r) → e'.Serving table)
    (h : (Source.change kind apply (Source.scan tx table)).next ⟨some {}, true, false⟩ e
      = (place', e', r)) :
    (∃ k ≤ table.pageCount e.disk * table.slots, r = .ok (some (Source.countRow k)))
      ∨ ∃ f, r = .error f := by
  rcases hpass : (Source.scan tx table).run (some {}) e 0 (Consumer.changing apply) with
    ⟨inner, e₁, k, verdict⟩
  have hle : k ≤ table.pageCount e.disk * table.slots := by
    have hrun : (ScanPlace.run tx table {} e 0 (Consumer.changing apply)).collected = k :=
      congrArg Pass.collected hpass
    unfold ScanPlace.run at hrun
    rw [if_neg (by simp)] at hrun
    simp only [Consumer.feed, ScanPlace.countPages] at hrun
    split at hrun
    · rw [← hrun]
      exact Nat.zero_le _
    · rename_i count hcount
      obtain rfl := TableFile.eq_of_countPages hcount
      rw [← hrun]
      refine (@runPages_changing_le tx table apply happly _ _ e 0 hs).trans ?_
      rw [Nat.zero_add]
      exact Nat.le_refl _
  have hchange : (Source.change kind apply (Source.scan tx table)).run ⟨some {}, true, false⟩ e none
      Consumer.one = _ := change_run hpass rfl rfl
  rw [Source.next_eq hchange] at h
  cases verdict with
  | failed f =>
    cases h
    exact Or.inr ⟨f, rfl⟩
  | stopped | ended =>
    cases h
    exact Or.inl ⟨k, hle, rfl⟩

end Changes

/-- **What a pass over a registered table guarantees beyond that**: the table's slots bound its
rows, whatever stood somewhere all the time is on a page that it counts, and a change that is fed by
a scan of the table ends. -/
structure PassLog.Bounded (log : PassLog) (table : TableFile) (e : Engine) : Prop where
  length_le : log.rows.length ≤ log.count.getD 0 * table.slots
  counted : ∀ rid, rid.page.table = table.id → (∀ m ∈ log.moments, m.content rid ≠ none) →
    rid.page.index.toNat < log.count.getD (table.pageCount e.disk)
  inserting : ∀ tx tx' place' e' r, (Source.insert tx table.id (Source.scan tx' table)).next
      ⟨some {}, true, false⟩ e = (place', e', r) →
    (∃ k ≤ table.pageCount e.disk * table.slots, r = .ok (some (Source.countRow k)))
      ∨ ∃ f, r = .error f
  deleting : ∀ tx tx' place' e' r, (Source.delete tx (Source.scan tx' table)).next
      ⟨some {}, true, false⟩ e = (place', e', r) →
    (∃ k ≤ table.pageCount e.disk * table.slots, r = .ok (some (Source.countRow k)))
      ∨ ∃ f, r = .error f

theorem Engine.Serving.insert {row : Row} {e' : Engine} {r : Except Failure Unit} {id : TableId}
    (hs : e.Serving table) (h : (match e.insert tx id row.unplaced with
      | (e, _, .ok _) => (e, .ok ())
      | (e, _, .error f) => (e, .error f)) = (e', r)) : e'.Serving table := by
  rcases hi : e.insert tx id row.unplaced with ⟨e₁, stored, result⟩
  rw [hi] at h
  have hcall : e.call (.insert tx id row.unplaced)
      = (e₁, Event.ofChange tx stored.rid (some stored.values) result) := by
    simp only [Engine.call, hi]
  have hs₁ := hs.call (c := .insert tx id row.unplaced) trivial hcall
  cases result <;> cases h <;> exact hs₁

theorem Engine.Serving.delete {row : Row} {e' : Engine} {r : Except Failure Unit}
    (hs : e.Serving table) (h : (match e.delete tx row with
      | (e, .ok _) => (e, .ok ())
      | (e, .error f) => (e, .error f)) = (e', r)) : e'.Serving table := by
  rcases hd : e.delete tx row with ⟨e₁, result⟩
  rw [hd] at h
  have hcall : e.call (.delete tx row) = (e₁, Event.ofChange tx row.rid none result) := by
    simp only [Engine.call, hd]
  have hs₁ := hs.call (c := .delete tx row) trivial hcall
  cases result <;> cases h <;> exact hs₁

theorem ScanPlace.Follows.bounded {pages : List Page} (h : place.Follows tx table log pages)
    (he : e ∈ log.moments) (hall : ∀ m ∈ log.moments, m.Serving table)
    (hordered : log.Ordered tx table) : log.Bounded table e where
  length_le := by
    refine hordered.bounded _ fun pid page hown ht => ?_
    obtain ⟨m, hm, m', -, e₁, frame, hf, hfetch, hu⟩ := ht
    have hshape := (hall m hm).shapes hown ⟨e₁, m', frame, hf, hfetch, hu, .refl⟩
    rw [Page.slotCount, hshape.schema_eq, hshape.size_eq]
  counted rid hown hthere := by
    have hlt : ∀ m ∈ log.moments, rid.page.index.toNat < table.pageCount m.disk := fun m hm =>
      (hall m hm).sound.lt_of_content (hown.symm ▸ (hall m hm).registered) (hthere m hm)
    cases hc : log.count with
    | none => exact hlt e he
    | some n =>
      obtain ⟨m, hm, rfl⟩ := h.counted n hc
      exact hlt m hm
  inserting tx tx' place' e' r hnext :=
    next_change_le (hall e he) (fun hs h => hs.insert h) hnext
  deleting tx tx' place' e' r hnext :=
    next_change_le (hall e he) (fun hs h => hs.delete h) hnext

/-- **A scan pass is sound**, whatever is called between its rows.  In every state that a new store
reaches, over any files:

* its rows come in the order of their record ids, so none comes twice; they are on pages that were
  counted when the first row was asked for, each was on its page when this was requested, and there
  are no more of them than these pages have slots;
* if it comes to its end, it has handed out once whatever stood at one place all the time;
* if tables stay registered as they are, the slots are those of the table, and an insert or a delete
  that is fed by a scan of the table ends as well. -/
theorem pass_sound {allowed : Engine → Call → Prop} {config : Config} {disk : Disk}
    {history : List Event} (hrun : Run allowed { config := config, disk := disk } start history)
    (h : Passes allowed tx table start place e log) :
    log.Ordered tx table
    ∧ (∀ place' e', (Source.ofTable tx table).next place e = (place', e', .ok none) →
      PassLog.Complete { log with moments := e' :: log.moments } tx table
        (log.count.getD (table.pageCount e.disk)))
    ∧ ((∀ e c, allowed e c → c.KeepsTables e) → start.catalog.table? table.id = some table →
      log.Bounded table e) := by
  obtain ⟨pages, hf⟩ := h.follows
  have hstart : Orderly start ∧ Formed start :=
    formed_of_run hrun (orderly_new config disk) fun _ _ hfind => by cases hfind
  have hall := h.all (S := fun m => Orderly m ∧ Formed m) hstart
    (fun _ hs he => ⟨hs.1.call _ he, hs.2.call hs.1 he⟩)
    fun hfetch hs => ⟨hfetch.orderly hs.1, hs.2.fetches hs.1 hfetch⟩
  have hordered := hf.ordered hall
  refine ⟨hordered, fun place' e' hnext => ?_, fun hkeeps ht => ?_⟩
  · have he' : Orderly e' ∧ Formed e' := by
      have hfetch := (ScanPlace.next_cases hf.going hnext).1
      obtain ⟨ho, hformed⟩ := hall e h.here
      exact ⟨hfetch.orderly ho, hformed.fetches ho hfetch⟩
    exact hf.complete h.here (List.forall_mem_cons.mpr ⟨he', hall⟩) hnext
  · have hsound := (hrun.mono fun hc => hkeeps _ _ hc).sound_of_keepsTables (sound_new config disk)
    have hserving := h.all (S := fun m => m.Serving table) ⟨hstart.1, hsound, ht⟩
      (fun hc hs he => hs.call (hkeeps _ _ hc) he) fun hfetch hs => hs.fetches hfetch
    exact hf.bounded h.here hserving hordered

open Sample in
/-- A pass over the one row of a table, with a second row put beside it meanwhile. -/
theorem pass_sound_inserting : ∃ place e log,
    Run (fun e c => c.KeepsTables e) Sample.start committed (history.take 2)
    ∧ Passes (fun e c => c.KeepsTables e) ⟨2⟩ Sample.table committed place e log
    ∧ log.rows = [⟨[.int 5], some first⟩]
    ∧ log.Ordered ⟨2⟩ Sample.table ∧ log.Bounded Sample.table e := by
  have hrun : Run (fun e c => c.KeepsTables e) Sample.start committed (history.take 2) :=
    run_committed.mono fun hc => hc.onTables.keepsTables
  rcases hnext : (Source.ofTable ⟨2⟩ Sample.table).next {} committed with ⟨place, e, r⟩
  have hreply : ((Source.ofTable ⟨2⟩ Sample.table).next {} committed).2.2.toOption
      = some (some ⟨[.int 5], some first⟩) := by decide +kernel
  rw [hnext] at hreply
  cases r with
  | error f => cases hreply
  | ok found =>
    cases hreply
    have hrow : Passes (fun e c => c.KeepsTables e) ⟨2⟩ Sample.table committed _ _ _ :=
      .row .created hnext
    have hpass := hrow.called (.insert ⟨2⟩ Sample.table.id ⟨[.int 6], none⟩) trivial rfl
    have ht : committed.catalog.table? Sample.table.id = some Sample.table := by decide +kernel
    obtain ⟨hordered, -, hbounded⟩ := pass_sound hrun hpass
    exact ⟨_, _, _, hrun, hpass, rfl, hordered, hbounded (fun _ _ hc => hc) ht⟩

end RowStore
