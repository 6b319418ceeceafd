import RowStore.Proofs.Atomicity
import RowStore.Proofs.Lock.Granting
import RowStore.Proofs.Query.Opening
import RowStore.Proofs.Reachable

/-!
# Plans compute their meaning, again and again

A plan that changes nothing hands out the rows that it means, one after the other, and then nothing
more; it can be started over or opened again wherever it stands, and hands out the same rows again.

This holds as long as the requests that the plan makes succeed and keep being answered by the same
rows (`Served`), whatever others do between its calls.  So it is, for one, as long as the pages are
cached and no writer is in the way (`Ready.served`).

A cursor over a list (`cursor`) says which replies are right.  Main statement:
`Query.replies_meaning`, by the script that the plan performs.
-/

namespace RowStore

/-! ## 1. Calls and replies -/

/-- What is asked of a query. -/
inductive Ask where
  | start
  | rewind
  | next

namespace Query

/-- Ask a query for something; only the next row is a reply with a row. -/
def ask (q : Query) (e : Engine) : Ask → Query × Engine × Except Failure (Option Row)
  | .start => match q.start e with
    | (q, e, r) => (q, e, r.map fun _ => none)
  | .rewind => match q.rewind e with
    | (q, e, r) => (q, e, r.map fun _ => none)
  | .next => q.next e

/-- **Ask a query for one thing after the other.**  Before each call others may change the engine.
The answer is the replies, and the engine afterwards. -/
def asks (q : Query) (e : Engine) :
    List ((Engine → Engine) × Ask) → List (Except Failure (Option Row)) × Engine
  | [] => ([], e)
  | (others, call) :: calls =>
    match q.ask (others e) call with
    | (q, e, reply) =>
      match q.asks e calls with
      | (replies, e) => (reply :: replies, e)

end Query

/-- **The replies of a cursor** over `all`, with the rows of `left` still to come: each row once,
then nothing for ever; opening and starting over lead back to the first row. -/
def cursor (all : List Row) : List Row → List Ask → List (Except Failure (Option Row))
  | _, [] => []
  | left, .next :: calls => .ok left.head? :: cursor all left.tail calls
  | _, .start :: calls | _, .rewind :: calls => .ok none :: cursor all all calls

/-- Whoever asks often enough gets all rows in order, and nothing from then on. -/
theorem cursor_next (all : List Row) (n : Nat) : ∀ left : List Row,
    cursor all left (List.replicate (left.length + n) .next)
      = left.map (fun row => .ok (some row)) ++ List.replicate n (.ok none)
  | [] => by
    induction n with
    | zero => rfl
    | succ n ih => simpa [List.replicate_succ, cursor] using ih
  | row :: left => by
    have ih := cursor_next all n left
    rw [List.length_cons, Nat.add_right_comm, List.replicate_succ, cursor, List.tail_cons, ih]
    rfl

/-- **Starting over gives all rows again**, whatever was asked before. -/
theorem cursor_again (all : List Row) {again : Ask} (h : again ≠ .next) (n : Nat) :
    ∀ (left : List Row) (calls : List Ask),
      cursor all left (calls ++ again :: List.replicate (all.length + n) .next)
        = cursor all left calls
          ++ .ok none :: (all.map (fun row => .ok (some row)) ++ List.replicate n (.ok none))
  | left, [] => by
    rw [List.nil_append, ← cursor_next]
    cases again with
    | next => exact absurd rfl h
    | start => rfl
    | rewind => rfl
  | left, call :: calls => by
    cases call with
    | next => exact congrArg (_ :: ·) (cursor_again all h n left.tail calls)
    | start => exact congrArg (_ :: ·) (cursor_again all h n all calls)
    | rewind => exact congrArg (_ :: ·) (cursor_again all h n all calls)

/-! ## 2. Requests that succeed -/

/-- **Requests succeed, and keep being answered by the same rows**, as long as the engine is one of
these; and they leave it so. -/
def Served (reqs : List Request) (S : Engine → Prop) : Prop :=
  ∀ request ∈ reqs, ∀ e, S e → ∃ e', request.Answered e e' (.ok ()) ∧ S e'

section Served

variable {S : Engine → Prop} {reqs : List Request} {request : Request} {events : List PlanEvent}
  {e : Engine}

theorem Served.honest (h : Served reqs S) : Honest reqs S := fun request hm e he =>
  (h request hm e he).imp fun _ h => ⟨.ok (), h⟩

theorem Served.tail (h : Served (request :: reqs) S) : Served reqs S :=
  fun r hm => h r (List.mem_cons_of_mem request hm)

theorem Served.reads (h : Served reqs S) (he : S e) : ∃ e', Reads reqs e e' (.ok ()) ∧ S e' := by
  induction reqs generalizing e with
  | nil => exact ⟨e, .nil, he⟩
  | cons request reqs ih =>
    obtain ⟨e₁, ha, he₁⟩ := h request List.mem_cons_self e he
    obtain ⟨e', hr, he'⟩ := ih h.tail he₁
    exact ⟨e', .cons ha hr, he'⟩

/-- **The next row** of some events is the first one, and none if there is none. -/
theorem Served.one (h : Served (PlanEvent.requests events) S) (he : S e) :
    ∃ rest e' signal,
      Consumer.one.Follows events e none rest e' (PlanEvent.rows events).head? signal
      ∧ ¬signal.Broke ∧ PlanEvent.rows rest = (PlanEvent.rows events).tail ∧ S e' := by
  induction events generalizing e with
  | nil => exact ⟨[], e, .more, .ended, Signal.not_broke_more, rfl, he⟩
  | cons event events ih =>
    cases event with
    | request request =>
      obtain ⟨e₁, ha, he₁⟩ := h request List.mem_cons_self e he
      obtain ⟨rest, e', signal, hf, hb, hrows, he'⟩ := ih h.tail he₁
      exact ⟨rest, e', signal, .request ha hf, hb, hrows, he'⟩
    | row row => exact ⟨events, e, .stop, .stopped rfl nofun, Signal.not_broke_stop, rfl, he⟩

/-- **An operator that performs a script can be opened** wherever it stands. -/
theorem Source.Performs.opens {σ : Type} {s : Source σ} {script : Script}
    {stands : σ → List PlanEvent → Prop} (h : s.Performs script reqs stands) (hs : Served reqs S)
    (place : σ) (he : S e) :
    ∃ place' e', s.start place e = (place', e', .ok ()) ∧ stands place' script.body ∧ S e' := by
  have hopening : Served script.opening S := fun request hm =>
    hs request (h.script_within request (List.mem_append_left _ hm))
  obtain ⟨e', hreads, he'⟩ := hopening.reads he
  obtain ⟨place', hstart, hstands⟩ := h.start place hreads
  exact ⟨place', e', hstart, hstands rfl, he'⟩

/-- An operator that performs a script can be started over wherever it stands. -/
theorem Source.Performs.rewinds {σ : Type} {s : Source σ} {script : Script}
    {stands : σ → List PlanEvent → Prop} (h : s.Performs script reqs stands) (hs : Served reqs S)
    {place : σ} (hstands : stands place events) (he : S e) :
    ∃ place' e', s.rewind place e = (place', e', .ok ()) ∧ stands place' script.body ∧ S e' := by
  have hopening : Served script.opening S := fun request hm =>
    hs request (h.script_within request (List.mem_append_left _ hm))
  obtain ⟨e', hreads, he'⟩ := hopening.reads he
  obtain ⟨place', hrewind, hbody⟩ := h.rewind hstands hreads
  exact ⟨place', e', hrewind, hbody rfl, he'⟩

/-- An operator that performs a script hands out the next row of what is left. -/
theorem Source.Performs.nexts {σ : Type} {s : Source σ} {script : Script}
    {stands : σ → List PlanEvent → Prop} (h : s.Performs script reqs stands) (hs : Served reqs S)
    {place : σ} (hstands : stands place events) (he : S e) :
    ∃ place' e' rest, s.next place e = (place', e', .ok (PlanEvent.rows events).head?)
      ∧ stands place' rest ∧ PlanEvent.rows rest = (PlanEvent.rows events).tail ∧ S e' := by
  have hleft : Served (PlanEvent.requests events) S := fun request hm =>
    hs request (h.left_within hstands request hm)
  obtain ⟨rest, e', signal, hf, hb, hrows, he'⟩ := hleft.one he
  obtain ⟨place', hrun, hstands'⟩ := h.run hstands hf
  refine ⟨place', e', rest, ?_, hstands' hb, hrows, he'⟩
  rw [Source.next_eq hrun]
  cases signal with
  | more => rfl
  | stop => rfl
  | fail f => exact absurd ⟨f, rfl⟩ hb

end Served

/-! ## 3. Where requests are served -/

/-- One reader more is in no reader's way. -/
theorem Holder.Granted.free_shared {hs hs' : List Holder} {tx other : Tx}
    (hg : Granted tx .shared hs hs') (h : Free hs other .shared) : Free hs' other .shared := by
  cases hg with
  | upgraded _ hm => cases hm
  | kept => exact h
  | joined =>
    intro holder hm hne
    rcases List.mem_append.mp hm with hm | hm
    · exact h holder hm hne
    · rw [List.mem_singleton.mp hm]
      exact LockMode.not_conflicts_iff.mpr ⟨rfl, rfl⟩

theorem LockTable.Consistent.free_shared {t : LockTable} {tx other : Tx} {pid p : PageId}
    (h : t.Consistent) (hg : (t.acquire tx .shared pid).2 = true)
    (hfree : t.Free other .shared p) : (t.acquire tx .shared pid).1.Free other .shared p := by
  rw [acquire_snd, Option.isSome_iff_exists] at hg
  obtain ⟨hs, hg⟩ := hg
  unfold Free
  rw [holders_acquire hg]
  split
  · rename_i he
    exact ((h.legal pid).granted hg).free_shared (he ▸ hfree)
  · exact hfree

/-- **Requests can be answered at once**: the pages are cached and can be used, and no writer is in
the way. -/
structure Ready (reqs : List Request) (e : Engine) : Prop where
  usable : e.cache.spoiled = false
  consistent : e.locks.Consistent
  counted : ∀ table n, .count table n ∈ reqs → table.countPages e.disk = .ok n
  free : ∀ tx table i rows, .page tx table i rows ∈ reqs →
    e.locks.Free tx .shared (table.pageId i)
  cached : ∀ tx table i rows, .page tx table i rows ∈ reqs →
    ∃ frame page, e.cache.find? (table.pageId i) = some frame ∧ frame.use = .ok page
      ∧ page.rows = rows

/-- **Where requests can be answered at once they are served.** -/
theorem Ready.served (reqs : List Request) : Served reqs (Ready reqs) := by
  intro request hm e h
  cases request with
  | count table n => exact ⟨e, .counted (h.counted table n hm), h⟩
  | page tx table i rows =>
    obtain ⟨frame, page, hfind, huse, hrows⟩ := h.cached tx table i rows hm
    have hgranted := h.consistent.granted_iff.mpr (h.free tx table i rows hm)
    have hfetch : e.fetch tx .read (table.pageId i)
        = ({ e with locks := (e.locks.acquire tx .shared (table.pageId i)).1 }, .ok frame) := by
      unfold Engine.fetch
      rw [show Access.read.mode = .shared from rfl, LockTable.request_of_granted hgranted]
      simp only [Engine.inCache, h.usable, Engine.bringIn, hfind, Bool.false_eq_true, if_false]
    refine ⟨_, .fetched hfetch huse hrows, h.usable, h.consistent.acquire tx .shared _, h.counted,
      fun tx' table' j rows' hm' => ?_, h.cached⟩
    exact h.consistent.free_shared hgranted (h.free tx' table' j rows' hm')

/-! ## 4. The replies of a query -/

namespace Query

variable {v : View} {S : Engine → Prop}

/-- **From a place where an operator stands**, the replies are those of a cursor over what is left
to do there. -/
theorem asks_cursor {p : Plan} {script : Script} {stands : p.Place → List PlanEvent → Prop}
    (h : p.source.Performs script (p.requests v) stands) (hs : Served (p.requests v) S) :
    ∀ (calls : List ((Engine → Engine) × Ask)) {place : p.Place} {events : List PlanEvent}
      {e : Engine}, stands place events → S e → (∀ call ∈ calls, ∀ e, S e → S (call.1 e)) →
      (asks ⟨p, place⟩ e calls).1
        = cursor (PlanEvent.rows script.body) (PlanEvent.rows events) (calls.map Prod.snd)
  | [], _, _, _, _, _, _ => rfl
  | (others, call) :: calls, place, events, e, hstands, he, hothers => by
    have he₁ : S (others e) := hothers _ List.mem_cons_self e he
    have hcalls : ∀ call ∈ calls, ∀ e, S e → S (call.1 e) := fun c hm =>
      hothers c (List.mem_cons_of_mem _ hm)
    cases call with
    | start =>
      obtain ⟨place', e', hstart, hbody, he'⟩ := h.opens hs place he₁
      have ih := asks_cursor h hs calls hbody he' hcalls
      simp only [asks, ask, start, hstart, List.map_cons, cursor, ih]
      rfl
    | rewind =>
      obtain ⟨place', e', hrewind, hbody, he'⟩ := h.rewinds hs hstands he₁
      have ih := asks_cursor h hs calls hbody he' hcalls
      simp only [asks, ask, rewind, hrewind, List.map_cons, cursor, ih]
      rfl
    | next =>
      obtain ⟨place', e', rest, hnext, hrest, hrows, he'⟩ := h.nexts hs hstands he₁
      have ih := asks_cursor h hs calls hrest he' hcalls
      simp only [asks, ask, next, hnext, List.map_cons, cursor, ih, hrows]

/-- **Plans compute their meaning, again and again.**  For every plan that changes nothing, at every
place in it, as long as its requests succeed and keep being answered by the same rows:

* if the plan has a meaning, then it can be opened, and whatever is asked of it from then on, its
  replies are those of a cursor over its meaning: each row once and in order, then nothing for
  ever, and all over again whenever it is started over or opened again;
* so whatever was asked before, starting over or opening again and asking for the next row as often
  as there are rows, and oftener, gives all rows of the meaning and then nothing;
* if a part of it has none, because an aggregate cannot be computed, it cannot be opened. -/
theorem replies_meaning {p : Plan} (hp : p.ReadOnly) (hs : Served (p.requests v) S)
    (place : p.Place) {e : Engine} (he : S e) :
    (∀ rows, p.meaning v = .ok rows → ∀ calls : List ((Engine → Engine) × Ask),
      (∀ call ∈ calls, ∀ e, S e → S (call.1 e)) →
      (asks ⟨p, place⟩ e ((id, .start) :: calls)).1
        = .ok none :: cursor rows rows (calls.map Prod.snd)
      ∧ ∀ again ≠ Ask.next, ∀ n,
        (asks ⟨p, place⟩ e ((id, .start) ::
            (calls ++ (id, again) :: List.replicate (rows.length + n) (id, .next)))).1
          = .ok none :: (cursor rows rows (calls.map Prod.snd)
            ++ .ok none :: (rows.map (fun row => .ok (some row)) ++ List.replicate n (.ok none))))
    ∧ ∀ (part : Plan) f, part.PartOf p → part.meaning v = .error f →
      ∃ g, (start ⟨p, place⟩ e).2.2 = .error g := by
  constructor
  · intro rows hm calls hothers
    obtain ⟨script, hscript, rfl⟩ := Plan.script_of_meaning_ok hm
    obtain ⟨stands, hperforms⟩ := Plan.performs hp hscript
    obtain ⟨place', e', hstart, hbody, he'⟩ := hperforms.opens hs place he
    have hreplies : ∀ calls : List ((Engine → Engine) × Ask),
        (∀ call ∈ calls, ∀ e, S e → S (call.1 e)) →
        (asks ⟨p, place⟩ e ((id, .start) :: calls)).1 = .ok none ::
          cursor (PlanEvent.rows script.body) (PlanEvent.rows script.body)
            (calls.map Prod.snd) := by
      intro calls hothers
      simp only [asks, ask, start, id, hstart, asks_cursor hperforms hs calls hbody he' hothers]
      rfl
    refine ⟨hreplies calls hothers, fun again ha n => ?_⟩
    rw [hreplies]
    · rw [List.map_append, List.map_cons, List.map_replicate, cursor_again _ ha]
    · intro call hm
      rcases List.mem_append.mp hm with hm | hm
      · exact hothers call hm
      · -- the calls behind come right after one another
        have hid : call.1 = id := by
          rcases List.mem_cons.mp hm with rfl | hm
          · rfl
          · rw [(List.mem_replicate.mp hm).2]
        rw [hid]
        exact fun e he => he
  · intro part f hpart hm
    obtain ⟨g, hg⟩ := hpart.meaning_fails hm
    obtain ⟨place', e', failure, hstart, -⟩ := Plan.start_fails hp hs.honest hg place he
    exact ⟨failure, by simp only [start, hstart]⟩

end Query

namespace Sample

/-- The table with two rows, as the second transaction sees it before it ends. -/
def view : View where
  count _ := 1
  rows _ _ := [⟨[.int 5], some first⟩, ⟨[.int 6], some ⟨table.pageId 0, 1⟩⟩]

/-- Every row of the table with the greatest one of it, if it is not greater. -/
def withGreatest : Plan :=
  .join ⟨0, .le, 0⟩ (.scan ⟨2⟩ table "a") (.aggregate ⟨.max, 0, none⟩ (.scan ⟨2⟩ table "b"))

/-- The sum of the greatest integer and one. -/
def tooMuch : Plan :=
  .aggregate ⟨.sum, 0, none⟩ (.rows schema [⟨[.int Int64.maxValue], none⟩, ⟨[.int 1], none⟩])

theorem ready_second : Ready (withGreatest.requests view) second where
  usable := by decide +kernel
  consistent :=
    ((Run.orderly (Engine.orderly_new _ _) run_committed).call
      (.insert ⟨2⟩ table.id ⟨[.int 6], none⟩) rfl).consistent
  counted := by
    intro t n hm
    obtain ⟨rfl, rfl⟩ : t = table ∧ n = 1 := by
      simpa [withGreatest, Plan.requests, scanRequests, view] using hm
    rfl
  free := by
    intro tx t i rows hm
    obtain ⟨rfl, rfl, rfl, -⟩ : tx = ⟨2⟩ ∧ t = table ∧ i = 0 ∧ rows = view.rows table 0 := by
      simpa [withGreatest, Plan.requests, scanRequests, view] using hm
    have hholders : second.locks.holders (table.pageId 0) = [⟨⟨2⟩, .exclusive⟩] := by
      decide +kernel
    intro holder hm hne
    rw [hholders, List.mem_singleton] at hm
    exact absurd (congrArg Holder.tx hm) hne
  cached := by
    intro tx t i rows hm
    obtain ⟨rfl, rfl, rfl, rfl⟩ : tx = ⟨2⟩ ∧ t = table ∧ i = 0 ∧ rows = view.rows table 0 := by
      simpa [withGreatest, Plan.requests, scanRequests, view] using hm
    have hfind : (second.cache.find? (table.pageId 0)).map
        (fun frame => (frame.spoiled, frame.page.rows)) = some (false, view.rows table 0) := by
      decide +kernel
    obtain ⟨frame, hf, he⟩ := Option.map_eq_some_iff.mp hfind
    obtain ⟨hs, hrows⟩ := Prod.mk.inj he
    exact ⟨frame, frame.page, hf, by simp [Frame.use, hs], hrows⟩

end Sample

namespace Query

/-- A join with an aggregate is read, started over in the middle, and read again to its end; a sum
that is too great cannot be opened. -/
theorem replies_meaning_twice :
    Ready (Sample.withGreatest.requests Sample.view) Sample.second
      ∧ (asks (ofPlan Sample.withGreatest) Sample.second
          ((id, .start) :: [(id, .next), (id, .rewind), (id, .next), (id, .next), (id, .next)])).1
        = [.ok none, .ok (some ⟨[.int 5, .int 6], none⟩), .ok none,
            .ok (some ⟨[.int 5, .int 6], none⟩), .ok (some ⟨[.int 6, .int 6], none⟩), .ok none]
      ∧ ∃ g, ((ofPlan Sample.tooMuch).start Sample.second).2.2 = .error g := by
  have hmeaning : Sample.withGreatest.meaning Sample.view
      = .ok [⟨[.int 5, .int 6], none⟩, ⟨[.int 6, .int 6], none⟩] := by rfl
  have hnone : Sample.tooMuch.meaning Sample.view = .error .sumOverflow := by rfl
  have hnothing : Served (Sample.tooMuch.requests Sample.view) (fun _ => True) :=
    fun request hm => absurd hm List.not_mem_nil
  refine ⟨Sample.ready_second, ?_, ?_⟩
  · have hreadOnly : Sample.withGreatest.ReadOnly := ⟨trivial, trivial⟩
    refine (replies_meaning hreadOnly (Ready.served _) Sample.withGreatest.source.fresh
      Sample.ready_second).1 _ hmeaning _ ?_ |>.1
    intro call hm e he
    simp only [List.mem_cons, List.not_mem_nil, or_false] at hm
    rcases hm with rfl | rfl | rfl | rfl | rfl <;> exact he
  · have hreadOnly : Sample.tooMuch.ReadOnly := trivial
    exact (replies_meaning hreadOnly hnothing Sample.tooMuch.source.fresh trivial).2
      Sample.tooMuch _ .whole hnone

end Query

end RowStore
