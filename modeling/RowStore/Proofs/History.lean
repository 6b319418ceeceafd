import RowStore.Proofs.Engine.Changing
import RowStore.Proofs.Engine.Completing

/-!
# Runs and their logs

A run is a list of calls, made by any number of transactions in any order, one after the other.
Beside the state it keeps a log of what went through: every row that was put in or taken out, with
the place and the transaction, and every completion that returned.  Nothing reads the log but
statements about runs; it is where they find what a transaction did and what became of it.

The calls that request pages all do the same: they explore, and may then change one row on a page
that was handed out for writing (`Worked`).  With the flushes and completions these are all calls
that use pages (`did_of_call`).  The last section has a store to try things on.
-/

namespace RowStore

/-! ## 1. Calls and events -/

/-- A call on a store.  A scan takes the table as its caller has it, so it may be one that is not
registered any more. -/
inductive Call where
  | fetch (tx : Tx) (access : Access) (pid : PageId)
  | insert (tx : Tx) (table : TableId) (row : Row)
  | delete (tx : Tx) (row : Row)
  | scan (tx : Tx) (table : TableFile)
  | complete (tx : Tx) (commit : Bool)
  | flushPage (pid : PageId)
  | flushChanged (tx : Tx)
  | flushAll
  | removePage (pid : PageId)
  | createTable (file name : String) (schema : Schema)
  | register (table : TableFile) (name : String)
  | unregister (table : TableId)
  | forgetTables
  | releasePage (tx : Tx) (pid : PageId)
  | clear

/-- What went through: a transaction put values at a place or took the row there away, or a
transaction was completed. -/
inductive Event where
  | changed (tx : Tx) (rid : RecordId) (values : Option (List Value))
  | completed (tx : Tx) (commit : Bool)
  deriving DecidableEq

namespace Event

/-- A change goes into the log if it went through. -/
def ofChange (tx : Tx) (rid? : Option RecordId) (values : Option (List Value)) :
    Except Failure (List PageId) → List Event
  | .ok _ => rid?.toList.map fun rid => changed tx rid values
  | .error _ => []

/-- A completion goes into the log if it returned, with a failure or without one. -/
def ofCompletion (tx : Tx) (commit : Bool) : Except Failure Unit → List Event
  | .ok _ => [completed tx commit]
  | .error f => if f.isUndefined then [] else [completed tx commit]

theorem ofCompletion_of_returned {tx : Tx} {commit : Bool} {r : Except Failure Unit}
    (h : Returned r) : ofCompletion tx commit r = [completed tx commit] := by
  cases r with
  | ok _ => rfl
  | error f => simp [ofCompletion, returned_error_iff.mp h]

theorem ofCompletion_of_not_returned {tx : Tx} {commit : Bool} {r : Except Failure Unit}
    (h : ¬ Returned r) : ofCompletion tx commit r = [] := by
  cases r with
  | ok a => exact absurd (returned_ok a) h
  | error f =>
    cases hf : f.isUndefined with
    | true => simp [ofCompletion, hf]
    | false => exact absurd (returned_error_iff.mpr hf) h

end Event

namespace Engine

/-- **The state after a call, and what the call adds to the log.** -/
def call (e : Engine) : Call → Engine × List Event
  | .fetch tx access pid => ((e.fetch tx access pid).1, [])
  | .insert tx table row =>
    match e.insert tx table row with
    | (e, stored, r) => (e, Event.ofChange tx stored.rid (some stored.values) r)
  | .delete tx row =>
    match e.delete tx row with
    | (e, r) => (e, Event.ofChange tx row.rid none r)
  | .scan tx table => ((e.scan tx table).1, [])
  | .complete tx commit =>
    match e.complete tx commit with
    | (e, r) => (e, Event.ofCompletion tx commit r)
  | .flushPage pid => ((e.flushPage pid).1, [])
  | .flushChanged tx => ((e.flushChanged tx).1, [])
  | .flushAll => (e.flushAll.1, [])
  | .removePage pid => ((e.removePage pid).1, [])
  | .createTable file name schema => ((e.createTable file name schema).1, [])
  | .register table name => ({ e with catalog := e.catalog.add table name }, [])
  | .unregister table => ({ e with catalog := (e.catalog.remove table).1 }, [])
  | .forgetTables => ({ e with catalog := {} }, [])
  | .releasePage tx pid => (e.releasePage tx pid, [])
  | .clear => (e.clear.1, [])

end Engine

/-- **A run** from a state: calls that are allowed where they are made.  The log begins empty. -/
inductive Run (allowed : Engine → Call → Prop) (start : Engine) : Engine → List Event → Prop
  | nil : Run allowed start start []
  | call {e e' : Engine} {log events : List Event} (c : Call) : Run allowed start e log →
      allowed e c → e.call c = (e', events) → Run allowed start e' (log ++ events)

/-- A run is one of a kind that allows more, too. -/
theorem Run.mono {allowed more : Engine → Call → Prop} {start e : Engine} {log : List Event}
    (hle : ∀ {e : Engine} {c : Call}, allowed e c → more e c) (h : Run allowed start e log) :
    Run more start e log := by
  induction h with
  | nil => exact .nil
  | call c _ hc he ih => exact ih.call c (hle hc) he

/-! ## 2. What becomes of a change -/

/-- How the next completion of a transaction in a log goes: `true` for a commit; nothing if the
transaction is not completed. -/
def fate (tx : Tx) : List Event → Option Bool
  | [] => none
  | .changed .. :: rest => fate tx rest
  | .completed other commit :: rest => if other = tx then some commit else fate tx rest

theorem fate_append (tx : Tx) : ∀ first second : List Event,
    fate tx (first ++ second) = (fate tx first).or (fate tx second)
  | [], _ => rfl
  | .changed .. :: rest, second => fate_append tx rest second
  | .completed other commit :: rest, second => by
    have ih := fate_append tx rest second
    simp only [List.cons_append, fate]
    split
    · rfl
    · exact ih

/-- **A transaction's change is pending** until the transaction is completed. -/
def Pending (log : List Event) (tx : Tx) (rid : RecordId) : Prop :=
  ∃ before values after, log = before ++ .changed tx rid values :: after ∧ fate tx after = none

theorem not_pending_nil (tx : Tx) (rid : RecordId) : ¬ Pending [] tx rid := by
  rintro ⟨before, values, after, h, _⟩
  simp at h

/-- What is pending after some more events was pending before and is not completed by them, or is
one of them. -/
theorem Pending.of_append {log events : List Event} {tx : Tx} {rid : RecordId}
    (h : Pending (log ++ events) tx rid) :
    (Pending log tx rid ∧ fate tx events = none) ∨ ∃ values, .changed tx rid values ∈ events := by
  obtain ⟨before, values, after, hlog, hfate⟩ := h
  rcases List.append_eq_append_iff.mp hlog with ⟨middle, -, he⟩ | ⟨middle, hl, he⟩
  · exact Or.inr ⟨values, by simp [he]⟩
  · cases middle with
    | nil =>
      rw [List.nil_append] at he
      exact Or.inr ⟨values, he ▸ List.mem_cons_self⟩
    | cons ev rest =>
      rw [List.cons_append, List.cons.injEq] at he
      obtain ⟨rfl, rfl⟩ := he
      rw [fate_append, Option.or_eq_none_iff] at hfate
      exact Or.inl ⟨⟨before, values, rest, hl, hfate.1⟩, hfate.2⟩

/-! ## 3. Calls that use pages -/

/-- **One row was put on a page or taken off it.** -/
inductive Page.Changed (p : Page) : Page → RecordId → Option (List Value) → Prop
  | inserted {row : Row} {q : Page} {rid : RecordId} :
      p.insert row = .ok (q, rid) → Changed p q rid (some row.values)
  | deleted {row : Row} {q : Page} {rid : RecordId} :
      row.rid = some rid → p.delete row = .ok q → Changed p q rid none

/-- The place is on the page, which keeps its id, its schema and its size. -/
theorem Page.Changed.same {p q : Page} {rid : RecordId} {values : Option (List Value)}
    (h : Changed p q rid values) : rid.page = p.pid ∧ SameFrame p q := by
  cases h with
  | inserted hi =>
    obtain ⟨_, _, _, hrid, hq⟩ := insert_eq_ok_iff.mp hi
    rw [hrid, hq]
    exact ⟨rfl, rfl, rfl, rfl⟩
  | deleted hr hd =>
    obtain ⟨_, hr', hpid, _, hq⟩ := delete_eq_ok_iff.mp hd
    rw [hr] at hr'
    cases hr'
    rw [hq]
    exact ⟨hpid, rfl, rfl, rfl⟩

namespace Engine

/-- **What a call that requests pages does**: it explores, and may then change one row on a page
that was handed out for writing. -/
inductive Worked (tx : Tx) (id : TableId) (e : Engine) : Engine → List Event → Prop
  | explored {e' : Engine} : Explored tx id e e' → Worked tx id e e' []
  | changed {e₁ : Engine} {pid : PageId} {frame : Frame} {page : Page} {rid : RecordId}
      {values : Option (List Value)} : Explored tx id e e₁ → Handed e₁ tx .write pid frame →
      frame.page.Changed page rid values →
      Worked tx id e (e₁.changePage tx pid frame page) [.changed tx rid values]

variable {e e' : Engine} {tx : Tx} {events : List Event}

theorem Room.explored {table : TableFile} {pid : PageId} (h : Room tx table e pid e') {id : TableId}
    (ht : e.catalog.table? id = some table) : Explored tx id e e' := by
  cases h with
  | found _ hf _ => exact .within hf
  | made hf hfull ha hf' => exact .beyond ht hf hfull ha hf'

theorem insert_worked {id : TableId} {row stored : Row} {r : Except Failure (List PageId)}
    (hp : e.cache.Proper) (h : e.insert tx id row = (e', stored, r)) :
    Worked tx id e e' (Event.ofChange tx stored.rid (some stored.values) r) := by
  rcases insert_cases hp h with ⟨hx, rfl, f, rfl⟩
    | ⟨table, pid, e₁, frame, page, rid, ht, -, hroom, hh, hi, rfl, rfl, rfl⟩
  · exact .explored hx
  · exact .changed (hroom.explored ht) hh (@Page.Changed.inserted _ row _ _ hi)

theorem delete_worked {row : Row} {r : Except Failure (List PageId)} (hp : e.cache.Proper)
    (h : e.delete tx row = (e', r)) (id : TableId) :
    Worked tx id e e' (Event.ofChange tx row.rid none r) := by
  rcases delete_cases hp h with ⟨hf, f, rfl⟩ | ⟨rid, e₁, frame, page, hr, hf, hh, hd, rfl, rfl⟩
  · exact .explored (.within hf)
  · rw [hr]
    exact .changed (.within hf) hh (.deleted hr hd)

/-- A flush of everything takes the steps of a flush. -/
theorem flushAll_settles {r : Except Failure Unit} (h : e.flushAll = (e', r)) : Settles e e' := by
  rcases flushAll_cases h with rfl | hflush
  · exact .refl
  · exact flushEach_settles hflush

/-- **What a call that uses pages does**: it works on rows, or settles pages, or completes a
transaction. -/
inductive Did (e : Engine) : Engine → List Event → Prop
  | worked {tx : Tx} {id : TableId} {e' : Engine} {events : List Event} :
      Worked tx id e e' events → Did e e' events
  | settled {e' : Engine} : Settles e e' → Did e e' []
  | completed {tx : Tx} {commit : Bool} {e' : Engine} {r : Except Failure Unit} :
      e.complete tx commit = (e', r) → Returned r → Did e e' [.completed tx commit]

end Engine

/-- The calls that look at rows or change them. -/
def Call.OnRows : Call → Prop
  | fetch .. | insert .. | delete .. | scan .. => True
  | _ => False

/-- The calls that use pages and no other means: requests, flushes and completions. -/
def Call.UsesPages : Call → Prop
  | fetch .. | insert .. | delete .. | scan .. | complete .. | flushPage .. | flushChanged ..
  | flushAll => True
  | _ => False

namespace Engine

variable {e e' : Engine} {events : List Event}

theorem worked_of_call {c : Call} (hp : e.cache.Proper) (hc : c.OnRows)
    (h : e.call c = (e', events)) : ∃ tx id, Worked tx id e e' events := by
  cases c with
  | fetch tx access pid =>
    cases h
    exact ⟨tx, pid.table, .explored (.within (fetch_fetches rfl))⟩
  | insert tx id row =>
    cases h
    exact ⟨tx, id, insert_worked hp rfl⟩
  | delete tx row =>
    cases h
    exact ⟨tx, .number 0, delete_worked hp rfl _⟩
  | scan tx table =>
    cases h
    exact ⟨tx, table.id, .explored (.within (scan_cases rfl).1)⟩
  | _ => cases hc

theorem did_of_call {c : Call} (hp : e.cache.Proper) (hc : c.UsesPages)
    (h : e.call c = (e', events)) : Did e e' events := by
  by_cases hrows : c.OnRows
  · obtain ⟨_, _, hw⟩ := worked_of_call hp hrows h
    exact .worked hw
  cases c with
  | complete tx commit =>
    cases hr : e.complete tx commit with
    | mk d r =>
      simp only [call, hr] at h
      cases h
      by_cases hret : Returned r
      · rw [Event.ofCompletion_of_returned hret]
        exact .completed hr hret
      · rw [Event.ofCompletion_of_not_returned hret]
        obtain ⟨e₁, hs, ⟨hret', -⟩ | ⟨-, rfl⟩⟩ := complete_cases hp hr
        · exact absurd hret' hret
        · exact .settled hs
  | flushPage pid =>
    cases h
    exact .settled (flushPage_settles rfl)
  | flushChanged tx =>
    cases h
    exact .settled (flushChanged_settles rfl)
  | flushAll =>
    cases h
    exact .settled (flushAll_settles rfl)
  | _ => exact absurd hc hrows

end Engine

/-! ## 4. A small store -/

namespace Sample

/-- One column of integers. -/
def schema : Schema := ⟨[⟨"n", .int64⟩]⟩

/-- A new store whose pages have room for four such rows, two pages in its cache. -/
def start : Engine := { config := { pageSize := 40, pages := 2 } }

/-- The table in the file `t`. -/
def table : TableFile := ⟨.file ⟨["t"]⟩, ⟨["t"]⟩, schema, 40, 0⟩

/-- The store after the table was created. -/
def opened : Engine :=
  { start with
    disk := { files := [(table.path, .ofList [])], opened := 1 }
    catalog := { tables := [(table.id, table)], names := [("t", table.id)] } }

/-- The place of the first row. -/
def first : RecordId := ⟨table.pageId 0, 0⟩

theorem parts_t : Disk.parts "t" = ["t"] := by
  have h : "t".splitOn "/" = ["t"] := by
    unfold String.splitOn
    rw [if_neg (by decide)]
    unfold String.splitOnAux
    rw [if_neg (by decide), if_neg (by decide)]
    unfold String.splitOnAux
    rw [if_pos (by decide)]
    decide
  rw [Disk.parts, h]
  rfl

theorem resolve_t (d : Disk) : d.resolve "t" = .ok table.path := by
  unfold Disk.resolve
  rw [if_neg (by decide), if_neg (by decide), parts_t]
  rfl

/-- Opening `t` on an empty disk creates the file. -/
theorem openFile_t : Disk.openFile {} "t" = .ok (({} : Disk).put table.path [], table.path) := by
  unfold Disk.openFile
  rw [resolve_t]
  simp only
  rw [if_neg (by decide), if_neg (by decide), if_neg (by decide)]

/-- And where the file is there, it opens it as it is. -/
theorem openFile_there {d : Disk} (hfolder : d.isFolder table.path = false)
    (hfile : d.isFile table.path = true) : d.openFile "t" = .ok (d, table.path) := by
  unfold Disk.openFile
  rw [resolve_t]
  simp only [hfolder, hfile]
  rw [if_neg (by decide), if_neg (by decide), if_true]

/-- **Opening a table in the file `t`**, whose id is its path. -/
theorem openAt_t {d d' : Disk} {schema : Schema} {pageSize : Nat}
    (hslots : (PageLayout.slotCount? schema pageSize).getD 0 ≠ 0)
    (hopen : d.openFile "t" = .ok (d', table.path))
    (hwhole : d'.length table.path % pageSize = 0) :
    TableFile.openAt .file d "t" schema pageSize = ({ d' with opened := d'.opened + 1 },
      .ok ⟨table.id, table.path, schema, pageSize, d'.opened⟩) := by
  unfold TableFile.openAt
  rw [hopen]
  split
  · rename_i hnone
    rw [hnone] at hslots
    exact absurd rfl hslots
  · rename_i hzero
    rw [hzero] at hslots
    exact absurd rfl hslots
  · simp only [hwhole, if_true]
    rfl

/-- **Creating a table in the file `t`** of a new store. -/
theorem createTable_t {config : Config} {d d' : Disk} {schema : Schema}
    (hid : config.idOf = .file)
    (hslots : (PageLayout.slotCount? schema config.pageSize).getD 0 ≠ 0)
    (hopen : d.openFile "t" = .ok (d', table.path))
    (hwhole : d'.length table.path % config.pageSize = 0) :
    Engine.createTable { config := config, disk := d } "t" "t" schema
      = ({ config := config
           disk := { d' with opened := d'.opened + 1 }
           catalog :=
            { tables := [(table.id, ⟨table.id, table.path, schema, config.pageSize, d'.opened⟩)]
              names := [("t", table.id)] } },
        .ok ⟨table.id, table.path, schema, config.pageSize, d'.opened⟩) := by
  unfold Engine.createTable
  simp only [hid, openAt_t hslots hopen hwhole]
  rfl

theorem createTable_start :
    start.createTable "t" "t" schema = (opened, .ok table) :=
  createTable_t rfl (by decide) openFile_t rfl

end Sample

end RowStore
