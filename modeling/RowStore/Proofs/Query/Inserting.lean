import RowStore.Proofs.Places
import RowStore.Proofs.Query.Looking
import RowStore.Proofs.Query.Restarting
import RowStore.Proofs.Query.Viewing

/-!
# Inserting what a plan yields

An insert pulls one row after the other out of its input and puts each into its table at once.  So
it does not insert what the input meant before: an input that reads the table itself may come to a
page on which a row was just put, and hand out that row again (`insert_meets_itself`).

What holds of every input that changes nothing: the table grows by the rows that the input hands
out, in their order, at the first unused places, and their number is the answer.  And these are the
rows that the input meant when it was opened, unless a row is put where the input still looks
(`Engine.Clear`).  Where the rows are put is known beforehand, by the places that are unused when
the input is opened, so this too is a matter of the state of the store at that moment.

Main statement: `Plan.insert_grows`.
-/

namespace RowStore

/-! ## 1. Putting rows into a table -/

/-- Put every row into a table, and count the rows. -/
def Consumer.counting (tx : Tx) (id : TableId) : Consumer Nat := fun n row e =>
  match e.insert tx id row.unplaced with
  | (e, _, .ok _) => (e, n + 1, .more)
  | (e, _, .error f) => (e, n, .fail f)

/-- Put every row into a table, and note the rows and their places. -/
def Consumer.putting (tx : Tx) (id : TableId) : Consumer (List (Row × RecordId)) :=
  fun puts row e =>
    match e.insert tx id row.unplaced with
    | (e, stored, .ok _) => (e, puts ++ (stored.rid.map fun rid => (row, rid)).toList, .more)
    | (e, _, .error f) => (e, puts, .fail f)

namespace Engine

variable {e e₀ e' : Engine} {tx : Tx} {table : TableFile} {row : Row}
  {puts puts' : List (Row × RecordId)} {signal : Signal} {events body : List PlanEvent}

/-- **No row is put where a plan still looks**: no request behind a row that the plan hands out
meets the place of this row, where every row gets the next unused place of the table. -/
def Clear (e : Engine) (table : TableFile) (events : List PlanEvent) : Prop :=
  ∀ before row after rids rid, events = before ++ .row row :: after →
    rids.length = (PlanEvent.rows before).length → e.FirstUnused table (rids ++ [rid]) →
    ∀ request ∈ PlanEvent.requests after, ¬request.Meets rid

/-- So it is where the plan reads other tables. -/
theorem clear_of_apart (h : ∀ request ∈ PlanEvent.requests events, request.table.id ≠ table.id) :
    e.Clear table events := by
  rintro before row after rids rid rfl - hplaces request hm hmeets
  have hown := (hplaces.unused rid (List.mem_append_right _ List.mem_cons_self)).own
  have hne : request.table.id ≠ table.id := h request <| by
    rw [PlanEvent.requests_append]
    exact List.mem_append_right _ hm
  cases request with
  | count t n => exact hne (hmeets.1.symm.trans hown)
  | page tx t i rows => exact hne ((congrArg PageId.table hmeets).symm.trans hown)

/-- And so it is where the plan has looked at everything before it hands out its first row. -/
theorem clear_of_first (reqs : List Request) (rows : List Row) :
    e.Clear table (reqs.map .request ++ rows.map .row) := by
  intro before row after rids rid hevents _ _ request hm
  have hnone : ∀ (reqs : List Request) (before : List PlanEvent),
      reqs.map .request ++ rows.map .row = before ++ .row row :: after →
      PlanEvent.requests after = [] := by
    intro reqs
    induction reqs with
    | nil =>
      intro before he
      have hr := congrArg PlanEvent.requests he
      rw [List.map_nil, List.nil_append, PlanEvent.requests_map_row, PlanEvent.requests_append]
        at hr
      exact (List.append_eq_nil_iff.mp hr.symm).2
    | cons first reqs ih =>
      intro before he
      cases before with
      | nil => cases he
      | cons event before => exact ih before (List.cons.inj he).2
  rw [hnone reqs before hevents] at hm
  cases hm

/-- While rows are put into a table: what was put so far, and that tables are shown rightly that
were, and no row of another one has changed. -/
structure Putting (e₀ : Engine) (table : TableFile) (puts : List (Row × RecordId)) (e : Engine) :
    Prop where
  shows : ∀ {t : TableFile}, e₀.Shows t → e.Shows t
  grown : e₀.Grown table puts e
  others : ∀ {t : TableFile} {rid : RecordId}, e₀.Shows t → t.id ≠ table.id →
    rid.page.table = t.id → e.content rid = e₀.content rid

/-- What changes no row of a table that is shown rightly leaves it so. -/
theorem Putting.keeps (h : e₀.Putting table puts e) (hs : e₀.Shows table)
    (hkeeps : ∀ {t : TableFile}, e.Shows t → SameTable t e e') : e₀.Putting table puts e' where
  shows ht := (hkeeps (h.shows ht)).shows
  grown := h.grown.congr (hkeeps (h.shows hs)).content_eq
  others ht hne hown := ((hkeeps (h.shows ht)).content_eq _ hown).trans (h.others ht hne hown)

theorem Putting.fetches (h : e₀.Putting table puts e) (hs : e₀.Shows table)
    (hf : Fetches tx e e') : e₀.Putting table puts e' :=
  h.keeps hs fun ht => ht.fetches hf

/-- **What putting one row does**: it fails and nothing is noted, or the row has a place. -/
theorem Putting.step (h : e₀.Putting table puts e) (hs : e₀.Shows table)
    (hk : Consumer.putting tx table.id puts row e = (e', puts', signal)) : e₀.Putting table puts' e'
      ∧ ((∃ f stored, e.insert tx table.id row.unplaced = (e', stored, .error f) ∧ puts' = puts
          ∧ signal = .fail f)
        ∨ ∃ stored pids rid, e.insert tx table.id row.unplaced = (e', stored, .ok pids)
          ∧ stored.rid = some rid ∧ puts' = puts ++ [(row, rid)] ∧ signal = .more) := by
  have hs' := h.shows hs
  unfold Consumer.putting at hk
  rcases hi : e.insert tx table.id row.unplaced with ⟨e₁, stored, r⟩
  rw [hi] at hk
  cases r with
  | error f =>
    cases hk
    refine ⟨?_, Or.inl ⟨f, stored, rfl, rfl, rfl⟩⟩
    rcases insert_cases hs'.proper hi with ⟨hx, -⟩ | ⟨_, _, _, _, _, _, -, -, -, -, -, -, -, hr⟩
    · exact h.keeps hs fun ht => hx.shows hs' ht
    · cases hr
  | ok pids =>
    obtain ⟨rid, rfl, hfit, hnone, hshows⟩ := hs'.insert hi
    cases hk
    refine ⟨⟨fun ht => (hshows (h.shows ht)).1, ?_, fun {t r} ht hne hown => ?_⟩,
      Or.inr ⟨_, pids, rid, rfl, rfl, rfl, rfl⟩⟩
    · exact h.grown.insert hfit hnone hs.roomy (hshows hs').2
    · have hother : r ≠ rid := by
        rintro rfl
        exact hne (hown.symm.trans hfit.own)
      rw [(hshows (h.shows ht)).2 r hown, if_neg hother]
      exact h.others ht hne hown

/-- **Counting rows and noting them are in step.** -/
theorem counting_inStep (hs : e₀.Shows table) :
    Consumer.InStep (fun n puts e => n = puts.length ∧ e₀.Putting table puts e)
      (Consumer.counting tx table.id) (Consumer.putting tx table.id) := by
  rintro _ puts row e ⟨rfl, hp⟩ e' n signal hk
  rcases hput : Consumer.putting tx table.id puts row e with ⟨e₁, puts', answer⟩
  obtain ⟨hp', hcases⟩ := hp.step hs hput
  unfold Consumer.counting at hk
  rcases hcases with ⟨f, stored, hi, rfl, rfl⟩ | ⟨stored, pids, rid, hi, -, rfl, rfl⟩
  · rw [hi] at hk
    cases hk
    exact ⟨_, rfl, rfl, hp'⟩
  · rw [hi] at hk
    cases hk
    exact ⟨_, rfl, by rw [List.length_append, List.length_singleton], hp'⟩

/-! ## 2. Where no row is put where the plan still looks -/

/-- **The plan does what it would do if nothing was put**: its events are followed to the end, and
all rows of them are put, unless something fails.  `before` are the events that were followed. -/
theorem putting_follows (hs : e₀.Shows table) (hclear : e₀.Clear table body)
    {before : List PlanEvent} (hbody : body = before ++ events)
    (hlen : puts.length = (PlanEvent.rows before).length) (hp : e₀.Putting table puts e)
    (hanswers : ∀ request ∈ PlanEvent.requests events, e.Answers request) :
    ∃ rest e' puts' signal,
      (Consumer.putting tx table.id).Follows events e puts rest e' puts' signal
      ∧ (¬signal.Broke →
          puts'.map Prod.fst = puts.map Prod.fst ++ PlanEvent.rows events) := by
  induction events generalizing before puts e with
  | nil => exact ⟨[], e, puts, .more, .ended, fun _ => (List.append_nil _).symm⟩
  | cons event events ih =>
    cases event with
    | request request =>
      obtain ⟨tx', e₁, r, ha, hfetch⟩ := (hanswers request List.mem_cons_self).answered
      cases r with
      | error f => exact ⟨events, e₁, puts, .fail f, .failed ha, fun hb => absurd ⟨f, rfl⟩ hb⟩
      | ok u =>
        have hbefore : puts.length = (PlanEvent.rows (before ++ [.request request])).length := by
          rw [PlanEvent.rows_append]
          exact hlen.trans (congrArg List.length (List.append_nil _).symm)
        obtain ⟨rest, e', puts', signal, hfollows, hrows⟩ :=
          ih (by rw [hbody, List.append_assoc]; rfl) hbefore (hp.fetches hs hfetch)
            fun other hm => (hanswers other (List.mem_cons_of_mem _ hm)).fetches hfetch
        exact ⟨rest, e', puts', signal, .request ha hfollows, hrows⟩
    | row row =>
      rcases hput : Consumer.putting tx table.id puts row e with ⟨e₁, puts₁, answer⟩
      obtain ⟨hp₁, ⟨f, -, -, rfl, rfl⟩ | ⟨stored, pids, rid, hi, hrid, rfl, rfl⟩⟩ :=
        hp.step hs hput
      · exact ⟨events, e₁, puts₁, .fail f, .stopped hput nofun, fun hb => absurd ⟨f, rfl⟩ hb⟩
      · -- the place of the row is the next one, so nothing behind it looks there
        have hplaces : e₀.FirstUnused table (puts.map Prod.snd ++ [rid]) := by
          have hgrown := hp₁.grown.places
          rwa [List.map_append] at hgrown
        have hmeets := hclear before row events (puts.map Prod.snd) rid hbody
          (by rw [List.length_map, hlen]) hplaces
        have hbefore : (puts ++ [(row, rid)]).length
            = (PlanEvent.rows (before ++ [.row row])).length := by
          rw [PlanEvent.rows_append, List.length_append, List.length_append, hlen]
          rfl
        obtain ⟨rest, e', puts', signal, hfollows, hrows⟩ :=
          ih (by rw [hbody, List.append_assoc]; rfl) hbefore hp₁ fun request hm =>
            (hanswers request hm).insert (hp.shows hs) hi hrid (hmeets request hm)
        refine ⟨rest, e', puts', signal, .more hput hfollows, fun hb => ?_⟩
        rw [hrows hb, List.map_append, List.append_assoc]
        rfl

end Engine

/-! ## 3. Inserting -/

section Insert

variable {σ : Type} {input : Source σ} {tx : Tx} {id : TableId} {inner : σ} {e : Engine}

/-- What an insert makes of a pass over its input. -/
theorem insert_next {pass : Pass σ Nat}
    (h : input.run inner e 0 (Consumer.counting tx id) = pass) :
    (Source.insert tx id input).next ⟨inner, true, false⟩ e = match pass.verdict with
      | .failed f => (⟨pass.place, true, false⟩, pass.engine, .error f)
      | _ => (⟨pass.place, true, true⟩, pass.engine,
          .ok (some (Source.countRow pass.collected))) := by
  unfold Source.next Source.insert Source.change
  simp only [if_true, Bool.false_eq_true, if_false]
  generalize hp : input.run inner e 0 _ = p
  have hpass : p = pass := by
    rw [← hp, ← h]
    congr 1
    funext n row e
    unfold Consumer.counting
    rcases e.insert tx id row.unplaced with ⟨e', stored, r⟩
    cases r <;> rfl
  rw [hpass]
  obtain ⟨place, e', n, verdict⟩ := pass
  cases verdict <;> rfl

/-- An insert that was opened has opened its input. -/
theorem insert_start {place place₁ : ChangePlace σ} {e₁ : Engine}
    (h : (Source.insert tx id input).start place e = (place₁, e₁, .ok ())) :
    ∃ inner, input.start place.input e = (inner, e₁, .ok ()) ∧ place₁ = ⟨inner, true, false⟩ := by
  unfold Source.insert Source.change at h
  rcases hs : input.start place.input e with ⟨inner, e', r⟩
  simp only [hs] at h
  cases r with
  | error f => cases h
  | ok u =>
    cases h
    exact ⟨inner, rfl, rfl⟩

end Insert

open Engine

section Runs

variable {e e₁ e₂ : Engine} {tx : Tx} {table : TableFile} {input : Plan}
  {inner : input.Place} {puts : List (Row × RecordId)} {verdict : Verdict}

/-- Opening a plan that changes nothing changes no row. -/
theorem Plan.opening_puts (hread : input.ReadOnly) (hs : e.Shows table) {place : input.Place}
    (hopen : input.source.start place e = (inner, e₁, .ok ())) : e.Putting table [] e₁ := by
  have hsteady : Steady fun e' => e.Putting table [] e' := fun hf hp => hp.fetches hs hf
  have hkept := (Plan.looks hread).start hsteady place
    ⟨id, grown_nil fun _ _ => rfl, fun _ _ _ => rfl⟩
  rwa [hopen] at hkept

/-- **The answer of an insert is the number of rows that its input hands out** while each is put
into the table. -/
theorem Plan.insert_answers (hread : input.ReadOnly) (hs : e.Shows table)
    (hp : e.Putting table [] e₁) {place₂ : (Plan.insert tx table.id input).Place}
    {reply : Option Row}
    (hnext : (Plan.insert tx table.id input).source.next ⟨inner, true, false⟩ e₁
      = (place₂, e₂, .ok reply)) :
    ∃ place puts verdict,
      input.source.run inner e₁ [] (Consumer.putting tx table.id) = ⟨place, e₂, puts, verdict⟩
      ∧ (∀ f, verdict ≠ .failed f) ∧ reply = some (Source.countRow puts.length)
      ∧ e.Putting table puts e₂ := by
  have hsteady : ∀ (n : Nat) (puts : List (Row × RecordId)),
      Steady fun e' => n = puts.length ∧ e.Putting table puts e' :=
    fun _ _ _ _ _ hf h => ⟨h.1, h.2.fetches hs hf⟩
  -- counting the rows and noting them leads to the same engine
  obtain ⟨puts, hrun, hlen, hgrown⟩ :=
    (Plan.looks hread).run hsteady (counting_inStep hs) inner (a := 0) ⟨rfl, hp⟩
  rcases hpass : input.source.run inner e₁ 0 (Consumer.counting tx table.id)
    with ⟨place, e', n, verdict⟩
  rw [hpass] at hrun hlen hgrown
  simp only at hrun hlen hgrown
  have hanswer := hnext.symm.trans (insert_next hpass)
  cases verdict with
  | failed f => cases hanswer
  | stopped | ended =>
    cases hanswer
    exact ⟨place, puts, _, hrun, nofun, by rw [hlen], hgrown⟩

/-- **Where no row is put where the input still looks, the rows are those that it meant**; an input
that reads other tables looks nowhere where a row is put. -/
theorem Plan.rows_of_clear (hread : input.ReadOnly) (hover : input.Over e.Plain)
    (hs : e.Shows table) {place place' : input.Place}
    (hopen : input.source.start place e = (inner, e₁, .ok ())) (hp : e.Putting table [] e₁)
    (hrun : input.source.run inner e₁ [] (Consumer.putting tx table.id)
      = ⟨place', e₂, puts, verdict⟩)
    (hended : ∀ f, verdict ≠ .failed f) :
    ∃ script, input.script e.view = .ok script
      ∧ (e.Clear table script.body → input.meaning e.view = .ok (puts.map Prod.fst))
      ∧ ((∀ request ∈ input.requests e.view, request.table.id ≠ table.id) →
        e.Clear table script.body) := by
  obtain ⟨hanswers, script, stands, hscript, hperforms, hstands⟩ :=
    Plan.started hread (honest_answers _)
      (fun request hm => ⟨hover.requests hm, Plan.tells_view request hm⟩) hopen
  refine ⟨script, hscript, fun hclear => ?_, fun hapart => clear_of_apart fun request hm =>
    hapart request (hperforms.left_within hstands request hm)⟩
  obtain ⟨rest, e₃, puts', signal, hfollows, hrows⟩ :=
    putting_follows hs hclear (List.nil_append _).symm rfl hp fun request hm =>
      hanswers request (hperforms.left_within hstands request hm)
  obtain ⟨place₃, hrun', -⟩ := hperforms.run hstands hfollows
  rw [hrun] at hrun'
  cases hrun'
  have hb : ¬signal.Broke := by
    rintro ⟨f, rfl⟩
    exact hended f rfl
  rw [← Plan.script_meaning, hscript, hrows hb]
  rfl

end Runs

/-- **An insert puts what its input hands out, and that is what the input meant** unless a row is
put where the input still looks.  Take any state that a new store reaches, over any files and by any
calls, while all tables have pages of its size and no two files have one id, a registered table
whose cached pages have its schema, and an input that changes nothing.  If the insert can be opened
and the next row is asked for without a failure, then

* this row is the number of rows that the input handed out while each was put into the table;
* the content of the table has grown by exactly these rows, with the values that its columns keep,
  in their order, at the first unused places;
* no other table has changed whose cached pages have its schema;
* if the tables that the input reads are intact, the input had a script when the insert was opened;
  and if none of its requests behind a row meets the place of this row, the rows are the meaning
  that the input had then.  None does if the input reads other tables only. -/
theorem Plan.insert_grows {dir : Directory} {config : Config} {disk : Disk} {e : Engine}
    {log : List Event}
    (h : Run (fun e c => c.Filed dir e) { config := config, disk := disk } e log) {tx : Tx}
    {table : TableFile} (ht : e.catalog.table? table.id = some table)
    (hc : e.Carries table.id table.schema) {input : Plan} (hread : input.ReadOnly)
    {place place₁ place₂ : (Plan.insert tx table.id input).Place} {e₁ e₂ : Engine}
    {reply : Option Row}
    (hstart : (Plan.insert tx table.id input).source.start place e = (place₁, e₁, .ok ()))
    (hnext : (Plan.insert tx table.id input).source.next place₁ e₁ = (place₂, e₂, .ok reply)) :
    ∃ puts : List (Row × RecordId),
      (input.source.run place₁.input e₁ [] (Consumer.putting tx table.id)).collected = puts
      ∧ reply = some (Source.countRow puts.length)
      ∧ e.Grown table puts e₂
      ∧ (∀ {other : TableFile} {rid : RecordId}, e.catalog.table? other.id = some other →
        e.Carries other.id other.schema → other.id ≠ table.id → rid.page.table = other.id →
        e₂.content rid = e.content rid)
      ∧ (input.Over e.Intact → ∃ script, input.script e.view = .ok script
        ∧ (e.Clear table script.body → input.meaning e.view = .ok (puts.map Prod.fst))
        ∧ ((∀ request ∈ input.requests e.view, request.table.id ≠ table.id) →
          e.Clear table script.body)) := by
  have hl := h.legible (legible_new dir config disk)
  have hs := hl.shows ht hc
  obtain ⟨inner, hopen, rfl⟩ := insert_start hstart
  have hputting := Plan.opening_puts hread hs hopen
  obtain ⟨place', puts, verdict, hrun, hended, hreply, hp⟩ :=
    Plan.insert_answers hread hs hputting hnext
  refine ⟨puts, by rw [hrun], hreply, hp.grown, fun ho hcarries => hp.others (hl.shows ho hcarries),
    fun hover => ?_⟩
  exact Plan.rows_of_clear hread (hover.mono fun hintact => hl.plain hintact) hs hopen hputting hrun
    hended

namespace Sample

/-- Insert a table into itself. -/
def doubling (tx : Tx) (table : TableFile) : Plan := .insert tx table.id (.scan tx table "t")

theorem intact_second : second.Intact table := by
  refine ⟨registered_second, carries_second, fun pid frame hf _ hd => ?_⟩
  have hdirty : ∀ entry ∈ second.cache.frames, entry.2.page.dirty ≠ none := by decide +kernel
  exact absurd hd (hdirty (pid, frame) (Assoc.mem_of_find? hf))

end Sample

/-- A table with two rows on one page is inserted into itself, and has four rows then. -/
theorem Plan.insert_grows_self : ∃ place e' puts,
    Run (fun e c => c.Filed .paths e) Sample.start Sample.second (Sample.history.take 3)
      ∧ (Sample.doubling ⟨2⟩ Sample.table).source.next ⟨some {}, true, false⟩ Sample.second
        = (place, e', .ok (some (Source.countRow 2)))
      ∧ Sample.second.Grown Sample.table puts e'
      ∧ puts.map Prod.fst = Sample.view.rows Sample.table 0 := by
  have hstart : (Sample.doubling ⟨2⟩ Sample.table).source.start ⟨none, false, false⟩ Sample.second
      = (⟨some {}, true, false⟩, Sample.second, .ok ()) := rfl
  have hreply : ((Sample.doubling ⟨2⟩ Sample.table).source.next ⟨some {}, true, false⟩
      Sample.second).2.2.toOption = some (some (Source.countRow 2)) := by decide +kernel
  rcases hnext : (Sample.doubling ⟨2⟩ Sample.table).source.next ⟨some {}, true, false⟩
    Sample.second with ⟨place, e', r⟩
  rw [hnext] at hreply
  cases r with
  | error f => cases hreply
  | ok reply =>
    cases hreply
    have hread : (Plan.scan ⟨2⟩ Sample.table "t").ReadOnly := trivial
    have hover : (Plan.scan ⟨2⟩ Sample.table "t").Over Sample.second.Intact := Sample.intact_second
    obtain ⟨puts, -, -, hgrown, -, hmeaning⟩ := insert_grows Sample.run_second
      Sample.registered_second Sample.carries_second hread hstart hnext
    obtain ⟨script, hscript, hmeaning, -⟩ := hmeaning hover
    have hcount : Sample.second.view.count Sample.table = 1 := by decide +kernel
    have hrows : Sample.second.view.rows Sample.table 0 = Sample.view.rows Sample.table 0 := by
      decide +kernel
    have hbody : script.body = [Request.count Sample.table 1,
        .page ⟨2⟩ Sample.table 0 (Sample.view.rows Sample.table 0)].map .request
        ++ (Sample.view.rows Sample.table 0).map .row := by
      cases hscript
      simp only [hcount, pagesFrom, hrows, List.append_nil]
      rfl
    have hsame := hmeaning (hbody ▸ Engine.clear_of_first _ _)
    refine ⟨place, e', puts, Sample.run_second, rfl, hgrown, ?_⟩
    have hvalue : (Plan.scan ⟨2⟩ Sample.table "t").meaning Sample.second.view
        = .ok (Sample.view.rows Sample.table 0) := by
      rw [← Plan.script_meaning, hscript, Except.map, hbody]
      rfl
    exact (Except.ok.inj (hvalue.symm.trans hsame)).symm

/-! ## 4. A table with room between its rows -/

namespace Sample

/-- The store after the second row was deleted. -/
def tightGap : Engine :=
  (tightFilled.call (.delete ⟨1⟩ ⟨[.int 6], some ⟨tightTable.pageId 1, 0⟩⟩)).1

theorem run_tightGap : Run (fun e c => c.OnTables e) tight tightGap tightHistory :=
  run_tightFilled.call (.delete ⟨1⟩ ⟨[.int 6], some ⟨tightTable.pageId 1, 0⟩⟩) trivial
    (Prod.ext (by rw [tightGap]) (by decide +kernel))

end Sample

/-- **An insert may meet the rows that it puts.**  A table has a row on its first page and room on
its second.  Inserting the table into itself answers two, though it had one row when it was opened:
the row is put on the second page, met there, and put again. -/
theorem insert_meets_itself :
    Run (fun e c => c.OnTables e) Sample.tight Sample.tightGap Sample.tightHistory
      ∧ Sample.tightGap.catalog.table? Sample.tightTable.id = some Sample.tightTable
      ∧ (Plan.scan ⟨1⟩ Sample.tightTable "t").meaning Sample.tightGap.view
        = .ok [⟨[.int 5], some Sample.first⟩]
      ∧ ((Query.ofPlan (Sample.doubling ⟨1⟩ Sample.tightTable)).asks Sample.tightGap
          [(id, .start), (id, .next)]).1.map Except.toOption
        = [some none, some (some (Source.countRow 2))]
      ∧ ((Query.ofPlan (Sample.doubling ⟨1⟩ Sample.tightTable)).asks Sample.tightGap
          [(id, .start), (id, .next)]).2.content ⟨Sample.tightTable.pageId 2, 0⟩
        = some [.int 5] := by
  have hrows : Sample.tightGap.view.table Sample.tightTable
      = [⟨[.int 5], some Sample.first⟩] := by decide +kernel
  refine ⟨Sample.run_tightGap, by decide +kernel, ?_, by decide +kernel, by decide +kernel⟩
  rw [Plan.meaning, hrows]

end RowStore
