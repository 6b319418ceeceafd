import RowStore.Proofs.Atomicity

/-!
# Replies

Clients of a store look at rows, change them and complete transactions.  `Engine.reply` is what a
client gets from a call that does not fail, and `Engine.serve` runs calls one after the other and
collects the replies.  Both are functions, so that two stores that get the same calls can be
compared reply by reply.

A reply has its rows as they were handed out; `Reply.cut` has them as they are stored.
-/

namespace RowStore

/-! ## 1. Clients -/

/-- What a caller gets from a call that does not fail. -/
inductive Reply where
  /-- The rows of a page or of a table, and the columns they are cut to. -/
  | rows (schema : Schema) (rows : List Row)
  /-- The row as the caller has it afterwards, and the pages that were changed. -/
  | inserted (row : Row) (pids : List PageId)
  | deleted (pids : List PageId)
  | done
  deriving DecidableEq

/-- The reply with every row as it is stored. -/
def Reply.cut : Reply → Reply
  | .rows schema found => .rows schema (found.map (Row.asStored schema))
  | .inserted row pids => .inserted row pids
  | .deleted pids => .deleted pids
  | .done => .done

/-- The calls of clients: those that look at rows or change them, and completions.  A scan is of a
table that is registered. -/
def Call.OfClients (catalog : Catalog) : Call → Prop
  | fetch .. | insert .. | delete .. | complete .. => True
  | scan _ table => catalog.table? table.id = some table
  | _ => False

theorem Call.OfClients.transactional {c : Call} {catalog : Catalog} (h : c.OfClients catalog)
    (e : Engine) : c.Transactional e := by
  cases c with
  | fetch | insert | delete | scan | complete => trivial
  | _ => cases h

/-! ## 2. Serving -/

namespace Engine

/-- **The reply to a client's call**, if the call does not fail. -/
def reply (e : Engine) : Call → Option Reply
  | .fetch tx access pid =>
    match e.fetch tx access pid with
    | (_, .ok frame) => some (.rows frame.page.schema frame.page.rows)
    | (_, .error _) => none
  | .insert tx table row =>
    match e.insert tx table row with
    | (_, stored, .ok pids) => some (.inserted stored pids)
    | (_, _, .error _) => none
  | .delete tx row =>
    match e.delete tx row with
    | (_, .ok pids) => some (.deleted pids)
    | (_, .error _) => none
  | .scan tx table =>
    match e.scan tx table with
    | (_, rows, .ok _) => some (.rows table.schema rows)
    | (_, _, .error _) => none
  | .complete tx commit =>
    match e.complete tx commit with
    | (_, .ok _) => some .done
    | (_, .error _) => none
  | _ => none

/-- **Calls one after the other**: the state behind them and the replies, if none of them fails. -/
def serve : List Call → Engine → Option (Engine × List Reply)
  | [], e => some (e, [])
  | c :: calls, e =>
    match e.reply c, serve calls (e.call c).1 with
    | some reply, some (e', replies) => some (e', reply :: replies)
    | _, _ => none

/-- A call that does not fail, with the state behind it and the reply. -/
inductive Replies (e : Engine) : Call → Engine → Reply → Prop
  | fetched {tx : Tx} {access : Access} {pid : PageId} {e' : Engine} {frame : Frame} :
      e.fetch tx access pid = (e', .ok frame) →
      Replies e (.fetch tx access pid) e' (.rows frame.page.schema frame.page.rows)
  | inserted {tx : Tx} {id : TableId} {row stored : Row} {e' : Engine} {pids : List PageId} :
      e.insert tx id row = (e', stored, .ok pids) →
      Replies e (.insert tx id row) e' (.inserted stored pids)
  | deleted {tx : Tx} {row : Row} {e' : Engine} {pids : List PageId} :
      e.delete tx row = (e', .ok pids) → Replies e (.delete tx row) e' (.deleted pids)
  | scanned {tx : Tx} {table : TableFile} {e' : Engine} {rows : List Row} :
      e.scan tx table = (e', rows, .ok ()) →
      Replies e (.scan tx table) e' (.rows table.schema rows)
  | completed {tx : Tx} {commit : Bool} {e' : Engine} :
      e.complete tx commit = (e', .ok ()) → Replies e (.complete tx commit) e' .done

variable {e e' d d' : Engine} {c : Call} {reply : Reply} {calls : List Call}
  {replies : List Reply}

theorem replies_of_reply (h : e.reply c = some reply) : Replies e c (e.call c).1 reply := by
  cases c with
  | fetch tx access pid =>
    rcases hf : e.fetch tx access pid with ⟨e', f | frame⟩
    · simp [Engine.reply, hf] at h
    · simp only [Engine.reply, hf, Option.some.injEq] at h
      rw [← h, call, hf]
      exact .fetched hf
  | insert tx id row =>
    rcases hi : e.insert tx id row with ⟨e', stored, f | pids⟩
    · simp [Engine.reply, hi] at h
    · simp only [Engine.reply, hi, Option.some.injEq] at h
      rw [← h, call, hi]
      exact .inserted hi
  | delete tx row =>
    rcases hd : e.delete tx row with ⟨e', f | pids⟩
    · simp [Engine.reply, hd] at h
    · simp only [Engine.reply, hd, Option.some.injEq] at h
      rw [← h, call, hd]
      exact .deleted hd
  | scan tx table =>
    rcases hs : e.scan tx table with ⟨e', rows, f | _⟩
    · simp [Engine.reply, hs] at h
    · simp only [Engine.reply, hs, Option.some.injEq] at h
      rw [← h, call, hs]
      exact .scanned hs
  | complete tx commit =>
    rcases hc : e.complete tx commit with ⟨e', f | _⟩
    · simp [Engine.reply, hc] at h
    · simp only [Engine.reply, hc, Option.some.injEq] at h
      rw [← h, call, hc]
      exact .completed hc
  | _ => cases h

theorem serve_cons (h : serve (c :: calls) e = some (e', replies)) :
    ∃ e₁ reply rest, Replies e c e₁ reply ∧ e₁ = (e.call c).1
      ∧ serve calls e₁ = some (e', rest) ∧ replies = reply :: rest := by
  unfold serve at h
  split at h
  · rename_i reply e₂ rest hreply hserve
    cases h
    exact ⟨_, reply, rest, replies_of_reply hreply, rfl, hserve, rfl⟩
  · cases h

end Engine

end RowStore
